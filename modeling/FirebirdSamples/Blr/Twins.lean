import FirebirdSamples.Blr.Bounds
import FirebirdSamples.Buffer
import Mathlib

/-!
# The Python decoder and its twins

The function `expr` of `samples/python/blr.py`. It returns the offset behind the expression instead
of moving a shared cursor, an index outside the bytes raises an exception and a slice is clipped.
Two more things can raise one that have no counterpart in the other samples: names and texts are
decoded as UTF-8, strictly, and the interpreter limits the depth of nested calls.

On the encoding of an expression nothing but these two can go wrong (`Python.expr_eq_ok_iff`). So
the decoders agree exactly if every name and every text is UTF-8, and the expression is not nested
too deeply (`twins_agree_iff`).
-/

namespace FirebirdSamples.Blr

open Fallible

/-! ### The decoder -/

namespace Python

/-- Why a call raises an exception. -/
inductive Exc where
  | indexError
  | unicodeDecodeError
  | recursionError
  deriving DecidableEq

/-- `b[i]`. -/
def index (b : List UInt8) (i : ℕ) : Except Exc UInt8 :=
  match b[i]? with
  | some x => .ok x
  | none => .error .indexError

/-- `b[i:j]`. -/
def slice (b : List UInt8) (i j : ℕ) : List UInt8 :=
  (b.take j).drop i

/-- `s.decode()`. -/
def decode (s : List UInt8) : Except Exc String :=
  match String.fromUTF8? s.toByteArray with
  | some text => .ok text
  | none => .error .unicodeDecodeError

/-- `u16(b, i)`, a call that takes one of the frames left. -/
def u16 (b : List UInt8) : ℕ → ℕ → Except Exc ℕ
  | 0, _ => .error .recursionError
  | _ + 1, i => do
    let lo ← index b i
    let hi ← index b (i + 1)
    pure (lo.toNat ||| hi.toNat <<< 8)

/-- `expr(b, i, depth)`: the offset behind the expression and the lines printed, in UTF-8. The
interpreter allows so many more frames, the one of this call included. -/
def expr (b : List UInt8) : ℕ → ℕ → ℕ → Except Exc (ℕ × List Node)
  | 0, _, _ => .error .recursionError
  | frames + 1, i, depth => do
    let op ← index b i
    let i := i + 1
    if op = blrConcatenate then
      let (i, left) ← expr b frames i (depth + 1)
      let (i, right) ← expr b frames i (depth + 1)
      pure (i, .concatenate depth :: (left ++ right))
    else if op = blrField then
      let ctx ← index b i
      let n ← index b (i + 1)
      let name ← decode (slice b (i + 2) (i + 2 + n.toNat))
      pure (i + 2 + n.toNat, [.field depth ctx (Buffer.ofString name)])
    else
      -- `and` looks at the next byte only if there is a literal
      let text2 ← if op = blrLiteral then (index b i).map (· == blrText2) else pure false
      if text2 then
        let cs ← u16 b frames (i + 1)
        let n ← u16 b frames (i + 3)
        let text ← decode (slice b (i + 5) (i + 5 + n))
        pure (i + 5 + n, [.text2 depth cs n (Buffer.ofString text)])
      else
        pure (b.length, [.opcode depth op])

end Python

/-! ### What can go wrong -/

/-- The bytes are the UTF-8 encoding of a text. -/
def IsUtf8 (s : List UInt8) : Prop :=
  ∃ cs : List Char, s = cs.flatMap String.utf8EncodeChar

namespace Tree

/-- The names and texts in an expression. -/
def texts : Tree → List (List UInt8)
  | concatenate left right => left.texts ++ right.texts
  | field _ name => [name.1]
  | text2 _ text => [text.1]

/-- The frames the Python decoder takes: one for each operand inside another one, and one for the
calls of `u16`. -/
def frames : Tree → ℕ
  | concatenate left right => max left.frames right.frames + 1
  | field _ _ => 1
  | text2 _ _ => 2

end Tree

namespace Python

variable {b : List UInt8} {p frames : ℕ}

theorem index_of_holds {x : UInt8} (h : memory b p = some x) : index b p = .ok x := by
  rw [index, show b[p]? = some x from h]

theorem u16_of_holds {n : ℕ} (hn : n ≤ 65535) (h : Holds (memory b) p (le16 n)) :
    u16 b (frames + 1) p = .ok n := by
  obtain ⟨lo, hi, hlo, hhi, -, hle⟩ := u16_eq_ok (Blr.u16_of_holds hn h)
  have hu16 := Blr.u16_of_holds hn h
  rw [Blr.u16, readAt_eq_ok.2 hlo, ok_bind, readAt_eq_ok.2 hhi, ok_bind] at hu16
  rw [u16, index_of_holds hlo, ok_bind, index_of_holds hhi, ok_bind]
  exact congrArg Except.ok (Except.ok.inj hu16)

theorem slice_of_holds {s : List UInt8} (h : Holds (memory b) p s) :
    slice b p (p + s.length) = s := by
  obtain ⟨rest, hrest⟩ := holds_memory_iff.1 h
  rw [slice, List.drop_take, Nat.add_sub_cancel_left, ← hrest, List.take_left]

/-- Strict decoding accepts UTF-8 and nothing else, and the text encodes to the bytes again. -/
theorem decode_eq_ok_iff {s : List UInt8} {text : String} :
    decode s = .ok text ↔ s = Buffer.ofString text := by
  rw [decode, String.fromUTF8?]
  constructor
  · split_ifs with h
    · intro heq
      obtain rfl := Except.ok.inj heq
      exact List.toList_data_toByteArray.symm
    · intro heq
      cases heq
  · rintro rfl
    have hbytes : (Buffer.ofString text).toByteArray = text.toByteArray :=
      ByteArray.ext (by rw [List.data_toByteArray]; rfl)
    rw [dif_pos (hbytes ▸ text.isValidUTF8)]
    exact congrArg Except.ok (String.toByteArray_inj.1 hbytes)

theorem isUtf8_iff {s : List UInt8} : IsUtf8 s ↔ ∃ text, decode s = .ok text := by
  constructor
  · rintro ⟨cs, rfl⟩
    exact ⟨String.ofList cs, decode_eq_ok_iff.2 (Buffer.ofString_ofList cs).symm⟩
  · rintro ⟨text, htext⟩
    obtain ⟨cs, rfl⟩ := text.exists_eq_ofList
    exact ⟨cs, (decode_eq_ok_iff.1 htext).trans (Buffer.ofString_ofList cs)⟩

/-- A name or a text is decoded, and a node is made of it. -/
theorem decode_bind_eq_ok_iff {α : Type} {s : List UInt8} (node : List UInt8 → α) {r : α} :
    (decode s >>= fun text ↦ pure (node (Buffer.ofString text))) = .ok r ↔
      IsUtf8 s ∧ r = node s := by
  rw [isUtf8_iff, bind_eq_ok]
  constructor
  · rintro ⟨text, htext, heq⟩
    obtain rfl := decode_eq_ok_iff.1 htext
    exact ⟨⟨text, htext⟩, (Except.ok.inj heq).symm⟩
  · rintro ⟨⟨text, htext⟩, rfl⟩
    obtain rfl := decode_eq_ok_iff.1 htext
    exact ⟨text, htext, rfl⟩

end Python

/-! ### Decoding an encoding -/

section Decoding

variable {b : List UInt8} {p frames depth : ℕ} {r : ℕ × List Node}

/-- A field of a table. -/
theorem Python.expr_field_eq_ok_iff {ctx : UInt8} {name : {s : List UInt8 // s.length ≤ 255}}
    (h : Holds (memory b) p (Tree.field ctx name).encode) :
    Python.expr b frames p depth = .ok r ↔
      IsUtf8 name.1 ∧ 1 ≤ frames ∧
        r = (p + (Tree.field ctx name).encode.length, [.field depth ctx name.1]) := by
  obtain ⟨hop, hctx, hlen, hname⟩ := h
  rcases frames with _ | frames
  · exact iff_of_false (fun h ↦ by cases h) fun h ↦ absurd h.2.1 (Nat.not_succ_le_zero _)
  have hend : p + 1 + 2 + name.1.length = p + (Tree.field ctx name).encode.length := by
    simp only [Tree.encode, List.length_cons]
    omega
  rw [Python.expr, index_of_holds hop, ok_bind, if_neg (by decide), if_pos rfl,
    index_of_holds hctx, ok_bind, index_of_holds hlen, ok_bind, toNat_ofNat_length name.2,
    slice_of_holds hname]
  refine (decode_bind_eq_ok_iff fun s ↦
    (p + 1 + 2 + name.1.length, [Node.field depth ctx s])).trans ?_
  rw [hend]
  exact and_congr_right' (and_iff_right (Nat.le_add_left 1 _)).symm

/-- A text. -/
theorem Python.expr_text2_eq_ok_iff {charset : UInt16}
    {text : {s : List UInt8 // s.length ≤ 65535}}
    (h : Holds (memory b) p (Tree.text2 charset text).encode) :
    Python.expr b frames p depth = .ok r ↔
      IsUtf8 text.1 ∧ 2 ≤ frames ∧ r = (p + (Tree.text2 charset text).encode.length,
        [.text2 depth charset.toNat text.1.length text.1]) := by
  obtain ⟨hop, htype, hrest⟩ := h
  obtain ⟨hcs, htext⟩ := holds_append.1 hrest
  obtain ⟨hlen, htext'⟩ := holds_append.1 htext
  have hcharset : charset.toNat ≤ 65535 := Nat.le_of_lt_succ charset.toNat_lt
  have hend : p + 1 + 5 + text.1.length = p + (Tree.text2 charset text).encode.length := by
    simp only [Tree.encode, le16, List.length_cons, List.length_append, List.length_nil]
    omega
  rcases frames with _ | _ | frames
  · exact iff_of_false (fun h ↦ by cases h) fun h ↦ absurd h.2.1 (Nat.not_succ_le_zero _)
  · refine iff_of_false ?_ fun h ↦ absurd h.2.1 (Nat.lt_irrefl 1)
    rw [Python.expr, index_of_holds hop, ok_bind, if_neg (by decide), if_neg (by decide),
      index_of_holds htype]
    intro h
    cases h
  rw [Python.expr, index_of_holds hop, ok_bind, if_neg (by decide), if_neg (by decide),
    index_of_holds htype]
  show (Python.u16 b (frames + 1) (p + 1 + 1) >>= _) = _ ↔ _
  have hslice : Python.slice b (p + 1 + 5) (p + 1 + 5 + text.1.length) = text.1 :=
    slice_of_holds htext'
  rw [Python.u16_of_holds hcharset hcs, ok_bind,
    show Python.u16 b (frames + 1) (p + 1 + 3) = .ok text.1.length from
      Python.u16_of_holds text.2 hlen, ok_bind, hslice]
  refine (decode_bind_eq_ok_iff fun s ↦ (p + 1 + 5 + text.1.length,
    [Node.text2 depth charset.toNat text.1.length s])).trans ?_
  rw [hend]
  exact and_congr_right' (and_iff_right (Nat.le_add_left 2 _)).symm

/-- **What the Python decoder makes of an encoding**: an end offset and the nodes, or an exception
if a name or a text is not UTF-8 or the frames do not suffice. The induction is over the tree. -/
theorem Python.expr_eq_ok_iff (t : Tree) (h : Holds (memory b) p t.encode) :
    Python.expr b frames p depth = .ok r ↔
      (∀ s ∈ t.texts, IsUtf8 s) ∧ t.frames ≤ frames ∧
        r = (p + t.encode.length, t.nodes id depth) := by
  induction t generalizing p frames depth r with
  | concatenate left right ihl ihr =>
    obtain ⟨hop, hoperands⟩ := h
    obtain ⟨hleft, hright⟩ := holds_append.1 hoperands
    rcases frames with _ | frames
    · exact iff_of_false (fun h ↦ by cases h) fun h ↦ absurd h.2.1 (Nat.not_succ_le_zero _)
    rw [Python.expr, index_of_holds hop, ok_bind, if_pos rfl, Tree.texts, Tree.frames,
      Nat.add_le_add_iff_right, Nat.max_le, List.forall_mem_append, Tree.encode, List.length_cons,
      List.length_append]
    constructor
    · intro hrun
      obtain ⟨⟨i, l⟩, hl, hrun⟩ := bind_eq_ok.1 hrun
      obtain ⟨hutf8, hframes, heq⟩ := (ihl hleft).1 hl
      cases heq
      obtain ⟨⟨i, r'⟩, hr, hrun⟩ := bind_eq_ok.1 hrun
      obtain ⟨hutf8', hframes', heq⟩ := (ihr hright).1 hr
      cases heq
      refine ⟨⟨hutf8, hutf8'⟩, ⟨hframes, hframes'⟩, (Except.ok.inj hrun).symm.trans ?_⟩
      rw [Nat.add_assoc, Nat.add_assoc, Nat.add_comm 1]
      rfl
    · rintro ⟨⟨hutf8, hutf8'⟩, ⟨hframes, hframes'⟩, rfl⟩
      rw [(ihl hleft).2 ⟨hutf8, hframes, rfl⟩, ok_bind]
      dsimp only
      rw [(ihr hright).2 ⟨hutf8', hframes', rfl⟩, ok_bind, Nat.add_assoc, Nat.add_assoc,
        Nat.add_comm 1]
      rfl
  | field ctx name =>
    rw [Tree.texts, List.forall_mem_singleton]
    exact Python.expr_field_eq_ok_iff h
  | text2 charset text =>
    rw [Tree.texts, List.forall_mem_singleton]
    exact Python.expr_text2_eq_ok_iff h

end Decoding

/-! ### Where the twins agree -/

/-- A node without its name or text. -/
def Node.shape : Node → Node
  | .field depth ctx _ => .field depth ctx []
  | .text2 depth charset len _ => .text2 depth charset len []
  | node => node

/-- The shapes do not depend on what is shown of names and texts. -/
theorem Tree.map_shape_nodes (shown : List UInt8 → List UInt8) (t : Tree) (depth : ℕ) :
    (t.nodes shown depth).map Node.shape = (t.nodes id depth).map Node.shape := by
  induction t generalizing depth with
  | concatenate left right ihl ihr =>
    simp only [Tree.nodes, List.map_cons, List.map_append, ihl, ihr]
  | field ctx name => rfl
  | text2 charset text => rfl

/-- The Python decoder returns where the C++ and the Java decoder do, and reports the same nodes.
The expression stands behind `start` and is followed by `blr_eoc`. -/
def TwinsAgree (start : List UInt8) (t : Tree) (frames depth : ℕ) : Prop :=
  let b := start ++ (t.encode ++ [blrEoc])
  ∃ stop nodes, Python.expr b frames start.length depth = .ok (stop, nodes) ∧
    ∀ fuel, t.encode.length ≤ fuel →
      (∃ nodes', Cpp.expr (memory b) b.length fuel start.length depth = .ok (stop, nodes') ∧
        nodes'.map Node.shape = nodes.map Node.shape) ∧
      ∃ nodes', Java.expr (memory b) b.length fuel start.length depth = .ok (stop, nodes') ∧
        nodes'.map Node.shape = nodes.map Node.shape

/-- The bytes of an expression are in the memory. -/
theorem holds_expression (start : List UInt8) (t : Tree) :
    Holds (memory (start ++ (t.encode ++ [blrEoc]))) start.length t.encode := by
  refine holds_memory_of_isPrefix ?_
  rw [List.drop_left]
  exact List.prefix_append _ _

theorem TwinsAgree.isUtf8 {start : List UInt8} {t : Tree} {frames depth : ℕ}
    (h : TwinsAgree start t frames depth) : ∀ s ∈ t.texts, IsUtf8 s := by
  obtain ⟨stop, nodes, hrun, -⟩ := h
  exact ((Python.expr_eq_ok_iff t (holds_expression start t)).1 hrun).1

/-- **The twins agree** on an expression if all its names and texts are UTF-8 and it is not nested
too deeply for the Python interpreter, and otherwise the Python decoder raises an exception. -/
theorem twins_agree_iff (start : List UInt8) (t : Tree) (frames depth : ℕ) :
    TwinsAgree start t frames depth ↔ (∀ s ∈ t.texts, IsUtf8 s) ∧ t.frames ≤ frames := by
  have hholds := holds_expression start t
  constructor
  · intro h
    obtain ⟨stop, nodes, hrun, -⟩ := id h
    exact ⟨h.isUtf8, ((Python.expr_eq_ok_iff t hholds).1 hrun).2.1⟩
  · rintro ⟨hutf8, hframes⟩
    refine ⟨_, _, (Python.expr_eq_ok_iff t hholds).2 ⟨hutf8, hframes, rfl⟩, fun fuel hfuel ↦ ?_⟩
    obtain ⟨hcpp, hjava, -⟩ := expr_encode t hholds
      (start ++ (t.encode ++ [blrEoc])).length depth hfuel
    exact ⟨⟨_, hcpp, t.map_shape_nodes cString depth⟩, _, hjava, rfl⟩

theorem ff_notMem_utf8EncodeChar (c : Char) : 255 ∉ String.utf8EncodeChar c := by
  have hne : ∀ {n : ℕ}, n < 255 → (255 : UInt8) ≠ UInt8.ofNat n := by
    intro n hn h
    have h' := congrArg UInt8.toNat h
    rw [UInt8.toNat_ofNat', Nat.mod_eq_of_lt (by omega)] at h'
    exact absurd h' (Nat.ne_of_gt hn)
  unfold String.utf8EncodeChar
  dsimp only
  split_ifs <;> simp only [List.mem_cons, List.not_mem_nil, or_false, not_or]
  · exact hne (by omega)
  · exact ⟨hne (by omega), hne (by omega)⟩
  · exact ⟨hne (by omega), hne (by omega), hne (by omega)⟩
  · exact ⟨hne (by omega), hne (by omega), hne (by omega), hne (by omega)⟩

/-- A column whose name ends in a byte that is not UTF-8. -/
theorem not_twinsAgree_of_latin1 :
    ¬ TwinsAgree [blrVersion5] (.field 0 ⟨[78, 255], by decide⟩) 1000 1 := by
  intro h
  obtain ⟨cs, hcs⟩ := h.isUtf8 [78, 255] (List.mem_singleton_self _)
  have hmem : 255 ∈ cs.flatMap String.utf8EncodeChar := hcs ▸ by decide
  obtain ⟨c, -, hc⟩ := List.mem_flatMap.1 hmem
  exact ff_notMem_utf8EncodeChar c hc

end FirebirdSamples.Blr
