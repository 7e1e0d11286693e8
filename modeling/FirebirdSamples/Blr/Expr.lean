import FirebirdSamples.Blr.Memory

/-!
# The BLR expression decoders

The function `expr` of the samples that decode the BLR of a computed column: `samples/cpp/blr.cpp`,
`samples/fb-cpp/blr.cpp`, `samples/rust/src/bin/blr.rs`, `samples/go/blr/main.go` and `Blr.java`.
All of them walk the prefix form with one shared cursor, print a line for each node, and give up by
moving the cursor to the end. They differ in how the bytes of a name or a text are read for
printing, and Java treats a literal of another type like an unknown opcode; these two are the
parameters of `exprWith`.

The decoders read a memory that holds an encoding at an address, and `expr_encode` covers the one
that holds nothing else. The recursion is bounded by a number of nested calls (`fuel`); the length
of the encoding is always enough.
-/

namespace FirebirdSamples.Blr

open Fallible

/-! ### The decoders -/

/-- `blr_version5`. -/
def blrVersion5 : UInt8 := 5

/-- `blr_text2`. -/
def blrText2 : UInt8 := 15

/-- `blr_literal`. -/
def blrLiteral : UInt8 := 21

/-- `blr_field`. -/
def blrField : UInt8 := 23

/-- `blr_concatenate`. -/
def blrConcatenate : UInt8 := 39

/-- `blr_eoc`. -/
def blrEoc : UInt8 := 76

/-- The values printed in one line; the depth is its indentation. -/
inductive Node where
  | concatenate (depth : ℕ)
  | field (depth : ℕ) (ctx : UInt8) (name : List UInt8)
  | text2 (depth charset len : ℕ) (text : List UInt8)
  /-- `blr_literal dtype t ...`: a literal of another type. -/
  | dtype (depth : ℕ) (t : UInt8)
  /-- `opcode op (decoder stops here)`. -/
  | opcode (depth : ℕ) (op : UInt8)
  deriving DecidableEq

/-- The lines that report a stop. -/
def Node.isStop : Node → Bool
  | .dtype _ _ => true
  | .opcode _ _ => true
  | _ => false

/-- `expr(p, end, depth)`: the cursor left behind and the lines printed. The parameters read the
bytes of a name or a text, and report a literal of another type. -/
def exprWith (payload : ℕ → ℕ → Except Fault (List UInt8)) (otherLiteral : ℕ → UInt8 → Node)
    (m : Memory) (stop : ℕ) : ℕ → ℕ → ℕ → Except Fault (ℕ × List Node)
  | 0, _, _ => .error .outOfFuel
  | fuel + 1, p, depth => do
    let op ← readAt m p
    if op = blrConcatenate then
      let (p, left) ← exprWith payload otherLiteral m stop fuel (p + 1) (depth + 1)
      let (p, right) ← exprWith payload otherLiteral m stop fuel p (depth + 1)
      pure (p, .concatenate depth :: (left ++ right))
    else if op = blrField then
      let ctx ← readAt m (p + 1)
      let len ← readAt m (p + 2)
      let name ← payload (p + 3) len.toNat
      pure (p + 3 + len.toNat, [.field depth ctx name])
    else if op = blrLiteral then
      let t ← readAt m (p + 1)
      if t = blrText2 then
        let cs ← u16 m (p + 2)
        let len ← u16 m (p + 4)
        let text ← payload (p + 6) len
        pure (p + 6 + len, [.text2 depth cs len text])
      else
        pure (stop, [otherLiteral depth t])
    else
      pure (stop, [.opcode depth op])

/-- `expr` of the C++ sample. -/
def Cpp.expr (m : Memory) (stop : ℕ) : ℕ → ℕ → ℕ → Except Fault (ℕ × List Node) :=
  exprWith (printString m) .dtype m stop

/-- `expr` of the fb-cpp sample. -/
def FbCpp.expr (m : Memory) (stop : ℕ) : ℕ → ℕ → ℕ → Except Fault (ℕ × List Node) :=
  exprWith (printString m) .dtype m stop

/-- `expr` of the Rust sample: slices are checked against the length. -/
def Rust.expr (b : List UInt8) : ℕ → ℕ → ℕ → Except Fault (ℕ × List Node) :=
  exprWith (slice (memory b) b.length) .dtype (memory b) b.length

/-- `expr` of the Go sample: an index is checked against the length of the slice `b`, but slicing
only against its capacity, and finds the spare bytes behind it. -/
def Go.expr (b spare : List UInt8) : ℕ → ℕ → ℕ → Except Fault (ℕ × List Node) :=
  exprWith (slice (memory (b ++ spare)) (b.length + spare.length)) .dtype (memory b) b.length

/-- `expr` of the Java sample: a literal of another type is reported as an unknown opcode. -/
def Java.expr (m : Memory) (stop : ℕ) : ℕ → ℕ → ℕ → Except Fault (ℕ × List Node) :=
  exprWith (readBytes m) (fun depth _ ↦ .opcode depth blrLiteral) m stop

/-! ### Expression trees -/

/-- An expression the decoders know. -/
inductive Tree where
  | concatenate (left right : Tree)
  | field (ctx : UInt8) (name : {s : List UInt8 // s.length ≤ 255})
  | text2 (charset : UInt16) (text : {s : List UInt8 // s.length ≤ 65535})

/-- The prefix form of an expression. -/
def Tree.encode : Tree → List UInt8
  | concatenate left right => blrConcatenate :: (left.encode ++ right.encode)
  | field ctx name => blrField :: ctx :: UInt8.ofNat name.1.length :: name.1
  | text2 charset text =>
    blrLiteral :: blrText2 :: (le16 charset.toNat ++ (le16 text.1.length ++ text.1))

/-- The nodes of an expression in preorder, with what a sample shows of names and texts. -/
def Tree.nodes (shown : List UInt8 → List UInt8) : Tree → ℕ → List Node
  | concatenate left right, depth =>
    .concatenate depth :: (left.nodes shown (depth + 1) ++ right.nodes shown (depth + 1))
  | field ctx name, depth => [.field depth ctx (shown name.1)]
  | text2 charset text, depth => [.text2 depth charset.toNat text.1.length (shown text.1)]

/-! ### Decoding an encoding -/

section Decoding

variable {payload : ℕ → ℕ → Except Fault (List UInt8)} {otherLiteral : ℕ → UInt8 → Node}
  {m : Memory} {stop : ℕ} {shown : List UInt8 → List UInt8}

theorem Tree.one_le_length_encode (t : Tree) : 1 ≤ t.encode.length := by
  rcases t with ⟨left, right⟩ | ⟨ctx, name⟩ | ⟨charset, text⟩ <;> simp [Tree.encode]

/-- **Decoding inverts encoding**, for any way of reading names and texts that shows `shown s` of a
string `s` it finds in memory behind another byte. The induction is over the tree; the cursor left
by the first operand of a concatenation is where the second one stands. -/
theorem exprWith_encode
    (hpayload : ∀ p x s, Holds m p (x :: s) → payload (p + 1) s.length = .ok (shown s))
    (t : Tree) {fuel : ℕ} (hfuel : t.encode.length ≤ fuel) (p depth : ℕ)
    (h : Holds m p t.encode) :
    exprWith payload otherLiteral m stop fuel p depth =
      .ok (p + t.encode.length, t.nodes shown depth) := by
  obtain ⟨fuel, rfl⟩ : ∃ n, fuel = n + 1 :=
    Nat.exists_eq_add_one.2 (Nat.le_trans t.one_le_length_encode hfuel)
  induction t generalizing fuel p depth with
  | concatenate left right ihl ihr =>
    rw [Tree.encode, List.length_cons, List.length_append] at hfuel
    obtain ⟨hop, hoperands⟩ := h
    obtain ⟨hleft, hright⟩ := holds_append.1 hoperands
    have hl := left.one_le_length_encode
    have hr := right.one_le_length_encode
    obtain ⟨fuel, rfl⟩ : ∃ n, fuel = n + 1 := Nat.exists_eq_add_one.2 (by omega)
    rw [exprWith, readAt_eq_ok.2 hop, ok_bind, if_pos rfl,
      ihl (p + 1) (depth + 1) hleft fuel (by omega), ok_bind]
    show (exprWith payload otherLiteral m stop (fuel + 1) (p + 1 + left.encode.length) (depth + 1)
      >>= _) = _
    rw [ihr _ (depth + 1) hright fuel (by omega), ok_bind, Tree.encode, List.length_cons,
      List.length_append,
      show p + 1 + left.encode.length + right.encode.length =
        p + (left.encode.length + right.encode.length + 1) by omega]
    rfl
  | field ctx name =>
    obtain ⟨hop, hctx, hname⟩ := h
    rw [exprWith, readAt_eq_ok.2 hop, ok_bind, if_neg (by decide), if_pos rfl,
      readAt_eq_ok.2 hctx, ok_bind, readAt_eq_ok.2 hname.1, ok_bind, toNat_ofNat_length name.2,
      hpayload _ _ _ hname, ok_bind, Tree.encode, List.length_cons, List.length_cons,
      List.length_cons,
      show p + 3 + name.1.length = p + (name.1.length + 1 + 1 + 1) by omega]
    rfl
  | text2 charset text =>
    obtain ⟨hop, htype, hrest⟩ := h
    obtain ⟨hcs, htext⟩ := holds_append.1 hrest
    obtain ⟨hlen, -⟩ := holds_append.1 htext
    have hlen' : u16 m (p + 4) = .ok text.1.length := u16_of_holds text.2 hlen
    have htext' : payload (p + 6) text.1.length = .ok (shown text.1) := hpayload _ _ _ htext.2
    have hcharset : charset.toNat ≤ 65535 := Nat.le_of_lt_succ charset.toNat_lt
    rw [exprWith, readAt_eq_ok.2 hop, ok_bind, if_neg (by decide), if_neg (by decide), if_pos rfl,
      readAt_eq_ok.2 htype, ok_bind, if_pos rfl, u16_of_holds hcharset hcs, ok_bind,
      hlen', ok_bind, htext', ok_bind, Tree.encode,
      List.length_cons, List.length_cons, List.length_append, List.length_append,
      show p + 6 + text.1.length = p + (2 + (2 + text.1.length) + 1 + 1) by omega]
    rfl

end Decoding

/-- **The C++ and Java decoders invert the encoding.** In every memory that holds the encoding of an
expression at `p` — also in one that holds nothing else — both return with the cursor behind it and
the nodes of the expression, in preorder and with their depths. Java shows every name and text
whole, C++ up to its first NUL. -/
theorem expr_encode (t : Tree) {m : Memory} {p : ℕ} (h : Holds m p t.encode) (stop depth : ℕ)
    {fuel : ℕ} (hfuel : t.encode.length ≤ fuel) :
    Cpp.expr m stop fuel p depth = .ok (p + t.encode.length, t.nodes cString depth) ∧
      Java.expr m stop fuel p depth = .ok (p + t.encode.length, t.nodes id depth) ∧
      ∀ s : List UInt8, 0 ∉ s → cString s = id s :=
  ⟨exprWith_encode (fun _ _ _ h ↦ printString_of_holds h.2) t hfuel p depth h,
    exprWith_encode (fun _ _ _ h ↦ readBytes_of_holds h.2) t hfuel p depth h,
    fun _ ↦ cString_eq_self⟩

/-- A field and a text, decoded in a memory that holds nothing but their concatenation. -/
theorem expr_encode_field_text :
    let t := Tree.concatenate (.field 0 ⟨[65, 66], by decide⟩) (.text2 2 ⟨[32], by decide⟩)
    Cpp.expr (memory t.encode) 13 13 0 1 = .ok (13, [.concatenate 1, .field 2 0 [65, 66],
      .text2 2 2 1 [32]]) := by
  intro t
  have h : Holds (memory t.encode) 0 t.encode :=
    ⟨rfl, rfl, rfl, rfl, rfl, rfl, rfl, rfl, rfl, rfl, rfl, rfl, rfl, trivial⟩
  exact (expr_encode t h 13 1 (by decide)).1

end FirebirdSamples.Blr
