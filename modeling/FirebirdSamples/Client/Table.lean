import FirebirdSamples.Blr.Memory
import FirebirdSamples.Library.Columns
import Mathlib

/-!
# Tables

What a query of `samples/cpp/fb_sample.h` fetches, and what `print` shows of it. The columns are
coerced to `VARCHAR`, so that a row is a message with a length, the bytes and a null flag for each
of them, at the offsets that the metadata has. The engine writes one row after the other into the
same buffer, and leaves there what a shorter value does not cover.

The values are read back as they were stored, whatever an earlier row has left behind
(`fetch_eq`). `print` pads each cell to the width of its column, which the line of dashes shows, so
that the printed table can be read again: up to the first NUL of a text, and without the blanks at
its end (`printed_query`).
-/

namespace FirebirdSamples.Client

open Blr Fallible

/-- The bytes of a `std::string`. -/
abbrev Bytes : Type :=
  List UInt8

/-! ### Messages -/

/-- A column in the metadata. -/
structure Column where
  /-- `getField` -/
  name : Bytes
  /-- `getOffset` -/
  offset : ℕ
  /-- `getNullOffset` -/
  nullOffset : ℕ

/-- The value: a length and at most 512 bytes. -/
def Column.HasValue (c : Column) (i : ℕ) : Prop :=
  c.offset ≤ i ∧ i < c.offset + 514

/-- The null flag. -/
def Column.HasFlag (c : Column) (i : ℕ) : Prop :=
  c.nullOffset ≤ i ∧ i < c.nullOffset + 2

/-- The bytes of a column. -/
def Column.Has (c : Column) (i : ℕ) : Prop :=
  c.HasValue i ∨ c.HasFlag i

/-- A message. -/
structure Layout where
  columns : List Column
  /-- `getMessageLength` -/
  size : ℕ
  inside : ∀ c ∈ columns, c.offset + 514 ≤ size ∧ c.nullOffset + 2 ≤ size
  apart : columns.Pairwise fun c d ↦ ∀ i, c.Has i → ¬ d.Has i
  flag_apart : ∀ c ∈ columns, ∀ i, c.HasValue i → ¬ c.HasFlag i

/-- How a value is shown. -/
def text : Option Bytes → Bytes
  | none => [60, 110, 117, 108, 108, 62]
  | some s => s

/-- The text for NULL. -/
theorem text_none : text none = "<null>".toUTF8.data.toList := by
  decide +kernel

/-- Write a string into a buffer. -/
def patch (buffer : Bytes) (p : ℕ) (s : Bytes) : Bytes :=
  buffer.take p ++ s ++ buffer.drop (p + s.length)

/-- The engine stores a value. A value that is NULL is not touched. -/
def store (buffer : Bytes) (c : Column) : Option Bytes → Bytes
  | none => patch buffer c.nullOffset (le16 65535)
  | some s => patch (patch buffer c.nullOffset (le16 0)) c.offset (le16 s.length ++ s)

/-- The engine stores a row. -/
def storeRow (buffer : Bytes) : List Column → List (Option Bytes) → Bytes
  | c :: cs, v :: vs => storeRow (store buffer c v) cs vs
  | _, _ => buffer

/-- The value of a column, as the loop of `query` reads it. -/
def readValue (m : Memory) (c : Column) : Except Fault Bytes := do
  let nullFlag ← u16 m c.nullOffset
  if nullFlag ≠ 0 then
    pure (text none)
  else
    let len ← u16 m c.offset
    readBytes m (c.offset + 2) len

/-- The values of a row. -/
def readRow (m : Memory) : List Column → Except Fault (List Bytes)
  | [] => pure []
  | c :: cs => do
    let x ← readValue m c
    let row ← readRow m cs
    pure (x :: row)

/-- The loop of `query` over the rows. -/
def fetch (l : Layout) : Bytes → List (List (Option Bytes)) → Except Fault (List (List Bytes))
  | _, [] => pure []
  | buffer, vs :: rest => do
    let buffer := storeRow buffer l.columns vs
    let row ← readRow (memory buffer) l.columns
    let rows ← fetch l buffer rest
    pure (row :: rows)

/-! ### Tables -/

/-- A fetched result set. -/
structure Table where
  names : List Bytes
  rows : List (List Bytes)
  wide : ∀ r ∈ rows, r.length = names.length

namespace Table

/-- The width of a column: `w[c]`. -/
def width (t : Table) (c : ℕ) : ℕ :=
  t.rows.foldl (fun m r ↦ max m (r[c]?.getD []).length) (t.names[c]?.getD []).length

/-- The vector `w`. -/
def widths (t : Table) : List ℕ :=
  (List.range t.names.length).map t.width

/-- What `%-*s` and a blank make of a string. The width is cast to `int`, and a negative one counts
like its absolute value. -/
def cell (w : ℕ) (s : Bytes) : Bytes :=
  Columns.pad 32 (Int.bmod w 4294967296).natAbs (cString s) ++ [32]

/-- A line of `print`. -/
def line (t : Table) (cells : List Bytes) : Bytes :=
  (List.zipWith cell t.widths cells).flatten ++ [10]

/-- `print`: the names, a line of dashes, the rows. -/
def print (t : Table) : Bytes :=
  t.line t.names ++ (t.widths.flatMap fun w ↦ List.replicate w 45 ++ [32]) ++ [10] ++
    t.rows.flatMap t.line

end Table

/-- Read a printed table again: the names, and the rows. -/
def readTable (s : Bytes) : Option (List Bytes × List (List Bytes)) :=
  match (s.splitOn 10).dropLast with
  | names :: ruler :: rows =>
    let ws := Columns.widths 32 ruler
    some (Columns.cut 32 ws names, rows.map (Columns.cut 32 ws))
  | _ => none

/-- What a reader sees of a text. -/
def shown (s : Bytes) : Bytes :=
  (cString s).rdropWhile (· = 32)

/-! ### What is stored -/

theorem length_patch {buffer s : Bytes} {p : ℕ} (h : p + s.length ≤ buffer.length) :
    (patch buffer p s).length = buffer.length := by
  rw [patch, List.length_append, List.length_append, List.length_take, List.length_drop]
  omega

theorem holds_patch {buffer s : Bytes} {p : ℕ} (h : p + s.length ≤ buffer.length) :
    Holds (memory (patch buffer p s)) p s := by
  refine holds_memory_of_isPrefix ?_
  have hlength : (buffer.take p).length = p := List.length_take_of_le (by omega)
  rw [patch, List.append_assoc, List.drop_left' hlength]
  exact List.prefix_append _ _

/-- Elsewhere the buffer is as it was. -/
theorem memory_patch {buffer s : Bytes} {p i : ℕ} (h : p + s.length ≤ buffer.length)
    (hi : i < p ∨ p + s.length ≤ i) : memory (patch buffer p s) i = memory buffer i := by
  have hlength : (buffer.take p).length = p := List.length_take_of_le (by omega)
  rw [memory, memory, patch]
  rcases hi with hi | hi
  · rw [List.append_assoc, List.getElem?_append_left (by omega), List.getElem?_take_of_lt hi]
  · have hboth : (buffer.take p ++ s).length = p + s.length := by
      rw [List.length_append, hlength]
    rw [List.getElem?_append_right (by omega), hboth, List.getElem?_drop]
    congr 1
    omega

theorem holds_congr {m m' : Memory} {p : ℕ} {s : Bytes}
    (h : ∀ i, p ≤ i → i < p + s.length → m' i = m i) (hm : Holds m p s) : Holds m' p s := by
  induction s generalizing p with
  | nil => trivial
  | cons x s ih =>
    rw [List.length_cons] at h
    exact ⟨by rw [h p (le_refl p) (by omega)]; exact hm.1,
      ih (fun i hle hlt ↦ h i (by omega) (by omega)) hm.2⟩

/-- The memory shows a value in a column. -/
def Column.Shows (m : Memory) (c : Column) : Option Bytes → Prop
  | none => Holds m c.nullOffset (le16 65535)
  | some s => Holds m c.nullOffset (le16 0) ∧ Holds m c.offset (le16 s.length ++ s)

/-- A value fits into its column. -/
def Fits (v : Option Bytes) : Prop :=
  ∀ s, v = some s → s.length ≤ 512

variable {buffer : Bytes} {c : Column} {v : Option Bytes} {l : Layout}

/-- What is shown is read. -/
theorem readValue_of_shows {m : Memory} (hv : Fits v) (h : c.Shows m v) :
    readValue m c = .ok (text v) := by
  rcases v with _ | s
  · have hflag : u16 m c.nullOffset = .ok 65535 := u16_of_holds (by omega) h
    rw [readValue, hflag, ok_bind, if_pos (by decide)]
    rfl
  · obtain ⟨hflag, hvalue⟩ := h
    have hlength := hv s rfl
    obtain ⟨hlen, hbytes⟩ := holds_append.1 hvalue
    rw [readValue, u16_of_holds (by omega) hflag, ok_bind, if_neg (by decide),
      u16_of_holds (by omega) hlen, ok_bind]
    exact readBytes_of_holds hbytes

/-- The bytes of a column decide what it shows. -/
theorem Column.Shows.congr {m m' : Memory} (hv : Fits v) (h : c.Shows m v)
    (hm : ∀ i, c.Has i → m' i = m i) : c.Shows m' v := by
  have hflag : ∀ i, c.nullOffset ≤ i → i < c.nullOffset + 2 → m' i = m i :=
    fun i hle hlt ↦ hm i (Or.inr ⟨hle, hlt⟩)
  rcases v with _ | s
  · exact holds_congr hflag h
  · refine ⟨holds_congr hflag h.1, holds_congr (fun i hle hlt ↦ hm i (Or.inl ⟨hle, ?_⟩)) h.2⟩
    have hlength := hv s rfl
    rw [List.length_append] at hlt
    have htwo : (le16 s.length).length = 2 := rfl
    omega

theorem length_store (hv : Fits v)
    (hc : c.offset + 514 ≤ buffer.length ∧ c.nullOffset + 2 ≤ buffer.length) :
    (store buffer c v).length = buffer.length := by
  rcases v with _ | s
  · exact length_patch hc.2
  · have hlength := hv s rfl
    have hflag : (patch buffer c.nullOffset (le16 0)).length = buffer.length := length_patch hc.2
    have hvalue : (le16 s.length ++ s).length = 2 + s.length := by
      rw [List.length_append]
      rfl
    rw [store, length_patch (by omega), hflag]

/-- Storing a value leaves the bytes of the other columns as they were. -/
theorem memory_store {i : ℕ} (hv : Fits v)
    (hc : c.offset + 514 ≤ buffer.length ∧ c.nullOffset + 2 ≤ buffer.length) (hi : ¬ c.Has i) :
    memory (store buffer c v) i = memory buffer i := by
  obtain ⟨hvalue, hflag⟩ := not_or.1 hi
  rw [Column.HasValue] at hvalue
  rw [Column.HasFlag] at hflag
  have hoff : ∀ n, memory (patch buffer c.nullOffset (le16 n)) i = memory buffer i := by
    intro n
    refine memory_patch hc.2 ?_
    show i < c.nullOffset ∨ c.nullOffset + 2 ≤ i
    omega
  rcases v with _ | s
  · exact hoff 65535
  · have hlength := hv s rfl
    have hflag : (patch buffer c.nullOffset (le16 0)).length = buffer.length := length_patch hc.2
    have hlen : (le16 s.length ++ s).length = 2 + s.length := by
      rw [List.length_append]
      rfl
    rw [store, memory_patch (by omega) (by omega), hoff]

/-- **A value that has been stored is shown**, whatever was in the buffer. -/
theorem shows_store (hv : Fits v)
    (hc : c.offset + 514 ≤ buffer.length ∧ c.nullOffset + 2 ≤ buffer.length)
    (hflag : ∀ i, c.HasValue i → ¬ c.HasFlag i) : c.Shows (memory (store buffer c v)) v := by
  rcases v with _ | s
  · exact holds_patch hc.2
  · have hlength := hv s rfl
    have hsize : (patch buffer c.nullOffset (le16 0)).length = buffer.length := length_patch hc.2
    have hlen : (le16 s.length ++ s).length = 2 + s.length := by
      rw [List.length_append]
      rfl
    refine ⟨holds_congr (fun i hle hlt ↦ ?_) (holds_patch hc.2), holds_patch (by omega)⟩
    have hnot : ¬ c.HasValue i := fun h ↦ hflag i h ⟨hle, hlt⟩
    rw [Column.HasValue] at hnot
    exact memory_patch (by omega) (by omega)

theorem length_storeRow {cs : List Column} {vs : List (Option Bytes)} (hvs : ∀ v ∈ vs, Fits v)
    (hcs : ∀ c ∈ cs, c.offset + 514 ≤ buffer.length ∧ c.nullOffset + 2 ≤ buffer.length) :
    (storeRow buffer cs vs).length = buffer.length := by
  induction cs generalizing buffer vs with
  | nil => rw [storeRow]; exact fun _ _ _ _ h ↦ nomatch h
  | cons c cs ih =>
    rcases vs with _ | ⟨v, vs⟩
    · rfl
    · obtain ⟨hv, hvs⟩ := List.forall_mem_cons.1 hvs
      obtain ⟨hc, hcs⟩ := List.forall_mem_cons.1 hcs
      have hlength := length_store hv hc
      rw [storeRow, ih hvs (by rwa [hlength]), hlength]

/-- Storing a row leaves the bytes outside its columns as they were. -/
theorem memory_storeRow {cs : List Column} {vs : List (Option Bytes)} {i : ℕ}
    (hvs : ∀ v ∈ vs, Fits v)
    (hcs : ∀ c ∈ cs, c.offset + 514 ≤ buffer.length ∧ c.nullOffset + 2 ≤ buffer.length)
    (hi : ∀ c ∈ cs, ¬ c.Has i) : memory (storeRow buffer cs vs) i = memory buffer i := by
  induction cs generalizing buffer vs with
  | nil => rw [storeRow]; exact fun _ _ _ _ h ↦ nomatch h
  | cons c cs ih =>
    rcases vs with _ | ⟨v, vs⟩
    · rfl
    · obtain ⟨hv, hvs⟩ := List.forall_mem_cons.1 hvs
      obtain ⟨hc, hcs⟩ := List.forall_mem_cons.1 hcs
      obtain ⟨hic, hi⟩ := List.forall_mem_cons.1 hi
      rw [storeRow, ih hvs (by rwa [length_store hv hc]) hi, memory_store hv hc hic]

/-- **A row is read back.** -/
theorem readRow_storeRow {cs : List Column} {vs : List (Option Bytes)}
    (hlength : vs.length = cs.length) (hvs : ∀ v ∈ vs, Fits v)
    (hcs : ∀ c ∈ cs, c.offset + 514 ≤ buffer.length ∧ c.nullOffset + 2 ≤ buffer.length)
    (hapart : cs.Pairwise fun c d ↦ ∀ i, c.Has i → ¬ d.Has i)
    (hflag : ∀ c ∈ cs, ∀ i, c.HasValue i → ¬ c.HasFlag i) :
    readRow (memory (storeRow buffer cs vs)) cs = .ok (vs.map text) := by
  induction cs generalizing buffer vs with
  | nil =>
    obtain rfl := List.eq_nil_of_length_eq_zero hlength
    rfl
  | cons c cs ih =>
    rcases vs with _ | ⟨v, vs⟩
    · cases hlength
    · obtain ⟨hv, hvs⟩ := List.forall_mem_cons.1 hvs
      obtain ⟨hc, hcs⟩ := List.forall_mem_cons.1 hcs
      obtain ⟨hca, hapart⟩ := List.pairwise_cons.1 hapart
      obtain ⟨hcf, hflag⟩ := List.forall_mem_cons.1 hflag
      have hsize : ∀ d ∈ cs, d.offset + 514 ≤ (store buffer c v).length ∧
          d.nullOffset + 2 ≤ (store buffer c v).length := by
        rwa [length_store hv hc]
      have hshows : c.Shows (memory (storeRow (store buffer c v) cs vs)) v :=
        (shows_store hv hc hcf).congr hv fun i hi ↦
          memory_storeRow hvs hsize fun d hd ↦ hca d hd i hi
      rw [storeRow, readRow, readValue_of_shows hv hshows, ok_bind,
        ih (Nat.succ.inj hlength) hvs hsize hapart hflag]
      rfl

/-- A row of the result set. -/
def Row (l : Layout) (vs : List (Option Bytes)) : Prop :=
  vs.length = l.columns.length ∧ ∀ v ∈ vs, Fits v

/-- **The rows are read back**, one after the other out of the same buffer. -/
theorem fetch_eq {rows : List (List (Option Bytes))} (hbuffer : buffer.length = l.size)
    (hrows : ∀ vs ∈ rows, Row l vs) :
    fetch l buffer rows = .ok (rows.map (·.map text)) := by
  induction rows generalizing buffer with
  | nil => rfl
  | cons vs rows ih =>
    obtain ⟨⟨hlength, hvs⟩, hrows⟩ := List.forall_mem_cons.1 hrows
    have hinside : ∀ c ∈ l.columns, c.offset + 514 ≤ buffer.length ∧
        c.nullOffset + 2 ≤ buffer.length := by
      rw [hbuffer]
      exact l.inside
    have hsize := length_storeRow hvs hinside
    rw [fetch, readRow_storeRow hlength hvs hinside l.apart l.flag_apart, ok_bind,
      ih (hsize.trans hbuffer) hrows]
    rfl

/-! ### What is printed -/

theorem length_cString_le (s : Bytes) : (cString s).length ≤ s.length :=
  (List.takeWhile_sublist _).length_le

theorem cell_eq {w : ℕ} (hw : w < 2147483648) (s : Bytes) :
    Table.cell w s = Columns.pad 32 w (cString s) ++ [32] := by
  have hcast : Int.bmod w 4294967296 = w := by
    rw [Int.bmod_eq_emod]
    split_ifs <;> omega
  rw [Table.cell, hcast, Int.natAbs_natCast]

theorem le_foldl_max {α : Type} (f : α → ℕ) (l : List α) (n : ℕ) :
    n ≤ l.foldl (fun m a ↦ max m (f a)) n ∧
      ∀ a ∈ l, f a ≤ l.foldl (fun m a ↦ max m (f a)) n := by
  induction l generalizing n with
  | nil => exact ⟨le_refl n, fun a ha ↦ absurd ha List.not_mem_nil⟩
  | cons b l ih =>
    obtain ⟨hn, hl⟩ := ih (max n (f b))
    refine ⟨(le_max_left _ _).trans hn, fun a ha ↦ ?_⟩
    rcases List.mem_cons.1 ha with rfl | ha
    · exact (le_max_right _ _).trans hn
    · exact hl a ha

theorem foldl_max_lt {α : Type} {f : α → ℕ} {l : List α} {n k : ℕ} (hn : n < k)
    (hl : ∀ a ∈ l, f a < k) : l.foldl (fun m a ↦ max m (f a)) n < k := by
  induction l generalizing n with
  | nil => exact hn
  | cons b l ih =>
    obtain ⟨hb, hl⟩ := List.forall_mem_cons.1 hl
    exact ih (max_lt hn hb) hl

namespace Table

variable {t : Table}

/-- All texts are shorter than 2 GiB, as `int` counts. -/
def Short (t : Table) : Prop :=
  (∀ s ∈ t.names, s.length < 2147483648) ∧ ∀ r ∈ t.rows, ∀ s ∈ r, s.length < 2147483648

theorem length_getD_lt {r : List Bytes} (h : ∀ s ∈ r, s.length < 2147483648) (c : ℕ) :
    (r[c]?.getD []).length < 2147483648 := by
  rcases hget : r[c]? with _ | s
  · rw [Option.getD_none, List.length_nil]
    omega
  · exact h s (List.mem_of_getElem? hget)

theorem width_lt (h : t.Short) (c : ℕ) : t.width c < 2147483648 := by
  rw [width]
  exact foldl_max_lt (length_getD_lt h.1 c) fun r hr ↦ length_getD_lt (h.2 r hr) c

/-- **The columns are wide enough** for the names and for the cells of each row. -/
theorem forall₂_widths {cells : List Bytes} (h : cells = t.names ∨ cells ∈ t.rows) :
    List.Forall₂ (fun w s ↦ (cString s).length ≤ w) t.widths cells := by
  have hlength : cells.length = t.names.length := by
    rcases h with rfl | h
    · rfl
    · exact t.wide cells h
  refine List.forall₂_iff_get.2 ⟨by rw [widths, List.length_map, List.length_range, hlength], ?_⟩
  intro c hc hc'
  simp only [widths, List.get_eq_getElem, List.getElem_map, List.getElem_range]
  refine (length_cString_le _).trans ?_
  have hget : cells[c] = cells[c]?.getD [] := by
    rw [List.getElem?_eq_getElem hc', Option.getD_some]
  obtain ⟨hnames, hrows⟩ := le_foldl_max (fun r : List Bytes ↦ (r[c]?.getD []).length) t.rows
    (t.names[c]?.getD []).length
  rw [hget]
  rcases h with rfl | h
  · exact hnames
  · exact hrows cells h

theorem line_eq (h : t.Short) (cells : List Bytes) :
    t.line cells = Columns.line 32 t.widths (cells.map cString) ++ [10] := by
  have hwidths : ∀ w ∈ t.widths, w < 2147483648 := by
    intro w hw
    obtain ⟨c, -, rfl⟩ := List.mem_map.1 hw
    exact width_lt h c
  have hcells : ∀ (ws : List ℕ) (cells : List Bytes), (∀ w ∈ ws, w < 2147483648) →
      List.zipWith cell ws cells =
        List.zipWith (fun w s ↦ Columns.pad 32 w s ++ [32]) ws (cells.map cString) := by
    intro ws
    induction ws with
    | nil =>
      intro cells _
      rw [List.zipWith_nil_left, List.zipWith_nil_left]
    | cons w ws ih =>
      intro cells hws
      obtain ⟨hw, hws⟩ := List.forall_mem_cons.1 hws
      rcases cells with _ | ⟨s, cells⟩
      · rw [List.map_nil, List.zipWith_nil_right, List.zipWith_nil_right]
      · rw [List.map_cons, List.zipWith_cons_cons, List.zipWith_cons_cons, cell_eq hw,
          ih cells hws]
  rw [line, hcells t.widths cells hwidths]
  rfl

theorem ruler_eq (ws : List ℕ) :
    (ws.flatMap fun w ↦ List.replicate w (45 : UInt8) ++ [32]) = Columns.ruler 32 45 ws := by
  induction ws with
  | nil => rfl
  | cons w ws ih => rw [List.flatMap_cons, ih, Columns.ruler_cons, List.append_assoc]; rfl

/-- The lines of a printed table. -/
def lines (t : Table) : List Bytes :=
  Columns.line 32 t.widths (t.names.map cString) :: Columns.ruler 32 45 t.widths ::
    t.rows.map fun r ↦ Columns.line 32 t.widths (r.map cString)

theorem print_eq (h : t.Short) : t.print = t.lines.flatMap (· ++ [10]) := by
  have hline : t.line = fun cells ↦ Columns.line 32 t.widths (cells.map cString) ++ [10] :=
    funext (line_eq h)
  rw [print, hline, ruler_eq, lines, List.flatMap_cons, List.flatMap_cons, List.flatMap_map]
  simp only [List.append_assoc]

/-- **All lines have one length.** -/
theorem length_of_mem_lines {s : Bytes} (hs : s ∈ t.lines) :
    s.length = (t.widths.map (· + 1)).sum := by
  have hcells : ∀ cells : List Bytes, cells = t.names ∨ cells ∈ t.rows →
      (Columns.line 32 t.widths (cells.map cString)).length = (t.widths.map (· + 1)).sum :=
    fun cells h ↦ Columns.length_line 32 (List.forall₂_map_right_iff.2 (forall₂_widths h))
  rcases List.mem_cons.1 hs with rfl | hs
  · exact hcells t.names (Or.inl rfl)
  rcases List.mem_cons.1 hs with rfl | hs
  · refine Columns.length_line 32 (List.forall₂_map_right_iff.2 ?_)
    exact List.forall₂_same.2 fun w _ ↦ List.length_replicate.le
  · obtain ⟨r, hr, rfl⟩ := List.mem_map.1 hs
    exact hcells r (Or.inr hr)

/-- No text has a line end in it. -/
def OneLine (t : Table) : Prop :=
  (∀ s ∈ t.names, 10 ∉ s) ∧ ∀ r ∈ t.rows, ∀ s ∈ r, 10 ∉ s

theorem not_mem_lines (h : t.OneLine) : ∀ s ∈ t.lines, (10 : UInt8) ∉ s := by
  have hcells : ∀ cells : List Bytes, (∀ s ∈ cells, (10 : UInt8) ∉ s) →
      (10 : UInt8) ∉ Columns.line 32 t.widths (cells.map cString) := by
    intro cells hcells hmem
    rcases Columns.mem_line 32 hmem with h | ⟨s, hs, h⟩
    · exact absurd h (by decide)
    · obtain ⟨u, hu, rfl⟩ := List.mem_map.1 hs
      exact hcells u hu ((List.takeWhile_sublist _).subset h)
  intro s hs
  rcases List.mem_cons.1 hs with rfl | hs
  · exact hcells t.names h.1
  rcases List.mem_cons.1 hs with rfl | hs
  · intro hmem
    rcases Columns.mem_line 32 hmem with h | ⟨s, hs, h⟩
    · exact absurd h (by decide)
    · obtain ⟨w, -, rfl⟩ := List.mem_map.1 hs
      exact absurd (List.eq_of_mem_replicate h) (by decide)
  · obtain ⟨r, hr, rfl⟩ := List.mem_map.1 hs
    exact hcells r (h.2 r hr)

theorem cut_line {cells : List Bytes} (h : cells = t.names ∨ cells ∈ t.rows) :
    Columns.cut 32 t.widths (Columns.line 32 t.widths (cells.map cString)) = cells.map shown := by
  rw [Columns.cut_line 32 (List.forall₂_map_right_iff.2 (forall₂_widths h)), List.map_map]
  rfl

/-- **A printed table can be read again.** -/
theorem readTable_print (hshort : t.Short) (h : t.OneLine) :
    readTable t.print = some (t.names.map shown, t.rows.map (·.map shown)) := by
  rw [print_eq hshort, readTable, Columns.splitOn_flatMap (not_mem_lines h), List.dropLast_concat,
    lines]
  dsimp only
  rw [Columns.widths_ruler 32 (by decide), cut_line (Or.inl rfl), List.map_map]
  congr 2
  exact List.map_congr_left fun r hr ↦ cut_line (Or.inr hr)

end Table

/-! ### Queries -/

theorem length_of_readRow {m : Memory} {cs : List Column} {row : List Bytes}
    (h : readRow m cs = .ok row) : row.length = cs.length := by
  induction cs generalizing row with
  | nil =>
    obtain rfl := Except.ok.inj h
    rfl
  | cons c cs ih =>
    obtain ⟨x, -, h⟩ := bind_eq_ok.1 h
    obtain ⟨row', hrow, h⟩ := bind_eq_ok.1 h
    obtain rfl := Except.ok.inj h
    rw [List.length_cons, List.length_cons, ih hrow]

theorem length_of_fetch {rows : List (List (Option Bytes))} {out : List (List Bytes)}
    (h : fetch l buffer rows = .ok out) : ∀ r ∈ out, r.length = l.columns.length := by
  induction rows generalizing buffer out with
  | nil =>
    obtain rfl := Except.ok.inj h
    exact fun r hr ↦ absurd hr List.not_mem_nil
  | cons vs rows ih =>
    obtain ⟨row, hrow, h⟩ := bind_eq_ok.1 h
    obtain ⟨rest, hrest, h⟩ := bind_eq_ok.1 h
    obtain rfl := Except.ok.inj h
    exact List.forall_mem_cons.2 ⟨length_of_readRow hrow, ih hrest⟩

/-- `query`, behind `prepare`, for the rows that the engine has. -/
def query (l : Layout) (rows : List (List (Option Bytes))) : Except Fault Table :=
  match h : fetch l (List.replicate l.size 0) rows with
  | .error e => .error e
  | .ok rows =>
    .ok {
      names := l.columns.map (·.name)
      rows
      wide := fun r hr ↦ by rw [List.length_map, length_of_fetch h r hr] }

theorem query_eq {rows : List (List (Option Bytes))} (hrows : ∀ vs ∈ rows, Row l vs) :
    ∃ t, query l rows = .ok t ∧ t.names = l.columns.map (·.name) ∧
      t.rows = rows.map (·.map text) := by
  have hfetch : fetch l (List.replicate l.size 0) rows = .ok (rows.map (·.map text)) :=
    fetch_eq List.length_replicate hrows
  unfold query
  split
  · next e h => rw [hfetch] at h; cases h
  · next out h =>
    rw [hfetch] at h
    exact ⟨_, rfl, rfl, (Except.ok.inj h).symm⟩

/-- One column `C` in a message as the engine lays it out. -/
def oneColumn : Layout where
  columns := [⟨[67], 0, 514⟩]
  size := 516
  inside := by decide
  apart := List.pairwise_singleton _ _
  flag_apart c hc i hi hflag := by
    obtain rfl := List.mem_singleton.1 hc
    exact absurd hflag.1 (Nat.not_le.2 hi.2)

end FirebirdSamples.Client
