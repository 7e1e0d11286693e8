import FirebirdSamples.Blr.Expr

/-!
# Reading past the end of BLR

What the decoders of `FirebirdSamples.Blr.Expr` do on arbitrary bytes: the call of `expr` on the
bytes behind the version byte and the check for `blr_eoc` after it (`column`), on a memory that ends
with the string.

**A stop is signalled by the cursor only.** It is moved to the end, and the caller goes on: a
concatenation whose first operand stops decodes its second operand at the end of the string. So a
stop is harmless only where no concatenation still waits for its second operand, and truncated
operands are not noticed at all. `Decodable` says which strings are left: those that start with a
whole expression, and those on which the decoder stops (`Stops`) in the last operand of everything
around it. `staysInside_iff` is the exact statement for the four samples: they differ in how they
read past the end, by undefined behaviour, a panic or a slice of spare capacity, and not in when.
-/

namespace FirebirdSamples.Blr

open Fallible

/-! ### Decoding a column -/

/-- What the decoding of a column reports. -/
structure Report where
  /-- The version byte is `blr_version5`. -/
  version5 : Bool
  /-- The lines printed for the expression. -/
  nodes : List Node
  /-- The cursor behind the expression. -/
  cursor : ℕ
  /-- The expression is followed by `blr_eoc`. -/
  eoc : Bool

/-- The part of `main` that decodes the BLR of a column. -/
def column (expr : ℕ → ℕ → ℕ → Except Fault (ℕ × List Node)) (b : List UInt8) (fuel : ℕ) :
    Except Fault Report := do
  let version ← readAt (memory b) 0
  let (p, nodes) ← expr fuel 1 1
  if p < b.length then
    let x ← readAt (memory b) p
    pure { version5 := version = blrVersion5, nodes, cursor := p, eoc := x = blrEoc }
  else
    pure { version5 := version = blrVersion5, nodes, cursor := p, eoc := false }

/-- A report of a decoder that stayed inside its input. -/
structure Report.Inside (b : List UInt8) (r : Report) : Prop where
  /-- The cursor is not past the end. -/
  le : r.cursor ≤ b.length
  /-- A reported stop leaves it at the end. -/
  stopped : r.nodes.any Node.isStop = true → r.cursor = b.length
  /-- Without a stop, an expression was decoded. -/
  complete : r.nodes.any Node.isStop = false → ∃ t : Tree, (b.take r.cursor).drop 1 = t.encode

/-- The decoder returns without reading past the end, and reports a stop on anything it cannot
decode. -/
def StaysInside (expr : ℕ → ℕ → ℕ → Except Fault (ℕ × List Node)) (b : List UInt8) : Prop :=
  ∃ bound, ∀ fuel, bound ≤ fuel → ∃ r, column expr b fuel = .ok r ∧ r.Inside b

/-! ### Decodable strings -/

/-- The decoder stops in these bytes, with no operand left to decode after the stop. -/
inductive Stops : List UInt8 → Prop where
  /-- An unknown opcode. -/
  | opcode {op : UInt8} {rest : List UInt8} (hconcatenate : op ≠ blrConcatenate)
      (hfield : op ≠ blrField) (hliteral : op ≠ blrLiteral) : Stops (op :: rest)
  /-- A literal of another type. -/
  | dtype {t : UInt8} {rest : List UInt8} (h : t ≠ blrText2) : Stops (blrLiteral :: t :: rest)
  /-- The second operand of a concatenation. -/
  | right {rest : List UInt8} (left : Tree) (h : Stops rest) :
      Stops (blrConcatenate :: (left.encode ++ rest))

/-- The bytes start with an expression, or the decoder stops in them without harm. -/
def Decodable (body : List UInt8) : Prop :=
  (∃ t : Tree, t.encode <+: body) ∨ Stops body

/-! ### What a decoder that returns has read -/

section Decoder

variable {payload : ℕ → ℕ → Except Fault (List UInt8)} {otherLiteral : ℕ → UInt8 → Node}
  {b : List UInt8}

/-- **What a call that returns has done**: two operands, a name, a text, or a stop. -/
theorem exprWith_cases {m : Memory} {stop fuel p depth c : ℕ} {ns : List Node}
    (h : exprWith payload otherLiteral m stop (fuel + 1) p depth = .ok (c, ns)) :
    (∃ c' left right, m p = some blrConcatenate ∧
      exprWith payload otherLiteral m stop fuel (p + 1) (depth + 1) = .ok (c', left) ∧
      exprWith payload otherLiteral m stop fuel c' (depth + 1) = .ok (c, right) ∧
      ns = .concatenate depth :: (left ++ right)) ∨
    (∃ ctx len name, m p = some blrField ∧ m (p + 1) = some ctx ∧ m (p + 2) = some len ∧
      c = p + 3 + len.toNat ∧ ns = [.field depth ctx name]) ∨
    (∃ cs len text, m p = some blrLiteral ∧ m (p + 1) = some blrText2 ∧
      u16 m (p + 2) = .ok cs ∧ u16 m (p + 4) = .ok len ∧ c = p + 6 + len ∧
      ns = [.text2 depth cs len text]) ∨
    (∃ t, m p = some blrLiteral ∧ m (p + 1) = some t ∧ t ≠ blrText2 ∧ c = stop ∧
      ns = [otherLiteral depth t]) ∨
    ∃ op, m p = some op ∧ op ≠ blrConcatenate ∧ op ≠ blrField ∧ op ≠ blrLiteral ∧ c = stop ∧
      ns = [.opcode depth op] := by
  obtain ⟨op, hop, h⟩ := bind_eq_ok.1 h
  rw [readAt_eq_ok] at hop
  split_ifs at h with hconcatenate hfield hliteral
  · subst hconcatenate
    obtain ⟨⟨c', left⟩, hleft, h⟩ := bind_eq_ok.1 h
    obtain ⟨⟨c'', right⟩, hright, h⟩ := bind_eq_ok.1 h
    obtain ⟨rfl, rfl⟩ := Prod.mk.inj (Except.ok.inj h)
    exact Or.inl ⟨c', left, right, hop, hleft, hright, rfl⟩
  · subst hfield
    obtain ⟨ctx, hctx, h⟩ := bind_eq_ok.1 h
    obtain ⟨len, hlen, h⟩ := bind_eq_ok.1 h
    obtain ⟨name, -, h⟩ := bind_eq_ok.1 h
    obtain ⟨rfl, rfl⟩ := Prod.mk.inj (Except.ok.inj h)
    exact Or.inr (Or.inl ⟨ctx, len, name, hop, readAt_eq_ok.1 hctx, readAt_eq_ok.1 hlen, rfl, rfl⟩)
  · subst hliteral
    obtain ⟨t, ht, h⟩ := bind_eq_ok.1 h
    rw [readAt_eq_ok] at ht
    split_ifs at h with htext
    · subst htext
      obtain ⟨cs, hcs, h⟩ := bind_eq_ok.1 h
      obtain ⟨len, hlen, h⟩ := bind_eq_ok.1 h
      obtain ⟨text, -, h⟩ := bind_eq_ok.1 h
      obtain ⟨rfl, rfl⟩ := Prod.mk.inj (Except.ok.inj h)
      exact Or.inr (Or.inr (Or.inl ⟨cs, len, text, hop, ht, hcs, hlen, rfl, rfl⟩))
    · obtain ⟨rfl, rfl⟩ := Prod.mk.inj (Except.ok.inj h)
      exact Or.inr (Or.inr (Or.inr (Or.inl ⟨t, hop, ht, htext, rfl, rfl⟩)))
  · obtain ⟨rfl, rfl⟩ := Prod.mk.inj (Except.ok.inj h)
    exact Or.inr (Or.inr (Or.inr (Or.inr ⟨op, hop, hconcatenate, hfield, hliteral, rfl, rfl⟩)))

/-- A name that ends inside the string is one of a field. -/
theorem exists_field {p : ℕ} {ctx len : UInt8} (hop : memory b p = some blrField)
    (hctx : memory b (p + 1) = some ctx) (hlen : memory b (p + 2) = some len)
    (hc : p + 3 + len.toNat ≤ b.length) :
    ∃ name, (Tree.field ctx name).encode <+: b.drop p ∧
      p + 3 + len.toNat = p + (Tree.field ctx name).encode.length := by
  have hlength : ((b.drop (p + 3)).take len.toNat).length = len.toNat := by
    rw [List.length_take, List.length_drop]
    omega
  refine ⟨⟨(b.drop (p + 3)).take len.toNat, ?_⟩, holds_memory_iff.1 ?_, ?_⟩
  · rw [hlength]
    exact Nat.le_of_lt_succ len.toNat_lt
  · show Holds (memory b) p (blrField :: ctx ::
      UInt8.ofNat ((b.drop (p + 3)).take len.toNat).length :: (b.drop (p + 3)).take len.toNat)
    rw [hlength, UInt8.ofNat_toNat]
    exact ⟨hop, hctx, hlen, holds_memory_of_isPrefix <| List.take_prefix _ _⟩
  · rw [Tree.encode, List.length_cons, List.length_cons, List.length_cons, hlength]
    omega

/-- A text that ends inside the string is one of a literal. -/
theorem exists_text2 {p cs len : ℕ} (hop : memory b p = some blrLiteral)
    (ht : memory b (p + 1) = some blrText2) (hcs : u16 (memory b) (p + 2) = .ok cs)
    (hlen : u16 (memory b) (p + 4) = .ok len) (hc : p + 6 + len ≤ b.length) :
    ∃ charset text, (Tree.text2 charset text).encode <+: b.drop p ∧
      p + 6 + len = p + (Tree.text2 charset text).encode.length := by
  obtain ⟨charset, rfl, hcharset⟩ := exists_uint16_of_u16 hcs
  obtain ⟨n, rfl, hn⟩ := exists_uint16_of_u16 hlen
  have hlength : ((b.drop (p + 6)).take n.toNat).length = n.toNat := by
    rw [List.length_take, List.length_drop]
    omega
  refine ⟨charset, ⟨(b.drop (p + 6)).take n.toNat, ?_⟩, holds_memory_iff.1 ?_, ?_⟩
  · rw [hlength]
    exact Nat.le_of_lt_succ n.toNat_lt
  · show Holds (memory b) p (blrLiteral :: blrText2 :: (le16 charset.toNat ++
      (le16 ((b.drop (p + 6)).take n.toNat).length ++ (b.drop (p + 6)).take n.toNat)))
    rw [hlength]
    exact ⟨hop, ht, holds_append.2 ⟨hcharset, holds_append.2
      ⟨hn, holds_memory_of_isPrefix <| List.take_prefix _ _⟩⟩⟩
  · rw [Tree.encode, List.length_cons, List.length_cons, List.length_append,
      List.length_append, hlength]
    show p + 6 + n.toNat = p + (2 + (2 + n.toNat) + 1 + 1)
    omega

/-- **Decoders that return inside the string** have decoded an expression, or stopped harmlessly. A
first operand that stops leaves nothing to read for the second one. -/
theorem exprWith_inside (hother : ∀ depth t, (otherLiteral depth t).isStop = true)
    (fuel : ℕ) {p depth c : ℕ} {ns : List Node}
    (h : exprWith payload otherLiteral (memory b) b.length fuel p depth = .ok (c, ns))
    (hc : c ≤ b.length) :
    (∃ t : Tree, t.encode <+: b.drop p ∧ c = p + t.encode.length ∧
        ns.any Node.isStop = false) ∨
      (Stops (b.drop p) ∧ c = b.length ∧ ns.any Node.isStop = true) := by
  induction fuel generalizing p depth c ns with
  | zero => cases h
  | succ fuel ih =>
    rcases exprWith_cases h with ⟨c', left, right, hop, hleft, hright, rfl⟩ |
      ⟨ctx, len, name, hop, hctx, hlen, rfl, rfl⟩ | ⟨cs, len, text, hop, ht, hcs, hlen, rfl, rfl⟩ |
      ⟨t, hop, ht, htext, rfl, rfl⟩ | ⟨op, hop, hconcatenate, hfield, hliteral, rfl, rfl⟩
    · -- the second operand starts with a read at `c'`
      have hc' : c' < b.length := by
        obtain ⟨fuel, rfl⟩ : ∃ n, fuel = n + 1 := by
          rcases fuel with _ | fuel
          · cases hright
          · exact ⟨fuel, rfl⟩
        obtain ⟨op', hop', -⟩ := bind_eq_ok.1 hright
        exact (drop_of_memory (readAt_eq_ok.1 hop')).1
      obtain ⟨-, hdrop⟩ := drop_of_memory hop
      rcases ih hleft hc'.le with ⟨l, ⟨s, hl⟩, rfl, hnl⟩ | ⟨-, rfl, -⟩
      · have hdrop' : b.drop (p + 1 + l.encode.length) = s := by
          rw [← List.drop_drop, ← hl, List.drop_left]
        rcases ih hright hc with ⟨r, ⟨s', hr⟩, rfl, hnr⟩ | ⟨hstops, rfl, hnr⟩
        · refine Or.inl ⟨.concatenate l r, ⟨s', ?_⟩, ?_, ?_⟩
          · rw [hdrop, ← hl, ← hdrop', ← hr, Tree.encode, List.cons_append, List.append_assoc]
          · rw [Tree.encode, List.length_cons, List.length_append]
            omega
          · rw [List.any_cons, List.any_append, hnl, hnr]
            rfl
        · refine Or.inr ⟨?_, rfl, ?_⟩
          · rw [hdrop, ← hl, ← hdrop']
            exact .right l hstops
          · rw [List.any_cons, List.any_append, hnr, Bool.or_true, Bool.or_true]
      · exact absurd hc' (lt_irrefl _)
    · obtain ⟨name', hencode, hcursor⟩ := exists_field hop hctx hlen hc
      exact Or.inl ⟨.field ctx name', hencode, hcursor, rfl⟩
    · obtain ⟨charset, text', hencode, hcursor⟩ := exists_text2 hop ht hcs hlen hc
      exact Or.inl ⟨.text2 charset text', hencode, hcursor, rfl⟩
    · refine Or.inr ⟨?_, rfl, by rw [List.any_cons, hother]; rfl⟩
      rw [(drop_of_memory hop).2, (drop_of_memory ht).2]
      exact .dtype htext
    · refine Or.inr ⟨?_, rfl, rfl⟩
      rw [(drop_of_memory hop).2]
      exact .opcode hconcatenate hfield hliteral

/-- **A harmless stop**: the decoder returns with the cursor at the end. -/
theorem exprWith_stops {shown : List UInt8 → List UInt8}
    (hother : ∀ depth t, (otherLiteral depth t).isStop = true)
    (hpayload : ∀ p x s, Holds (memory b) p (x :: s) → payload (p + 1) s.length = .ok (shown s))
    {s : List UInt8} (h : Stops s) :
    ∀ {fuel p : ℕ} (depth : ℕ), s.length ≤ fuel → b.drop p = s →
      ∃ ns, exprWith payload otherLiteral (memory b) b.length fuel p depth = .ok (b.length, ns) ∧
        ns.any Node.isStop = true := by
  induction h with
  | @opcode op rest hconcatenate hfield hliteral =>
    intro fuel p depth hfuel hdrop
    obtain ⟨fuel, rfl⟩ : ∃ n, fuel = n + 1 := Nat.exists_eq_add_one.2 (by simp at hfuel; omega)
    obtain ⟨hop, -⟩ := memory_of_drop hdrop
    refine ⟨[.opcode depth op], ?_, rfl⟩
    rw [exprWith, readAt_eq_ok.2 hop, ok_bind, if_neg hconcatenate, if_neg hfield,
      if_neg hliteral]
    rfl
  | @dtype t rest ht =>
    intro fuel p depth hfuel hdrop
    obtain ⟨fuel, rfl⟩ : ∃ n, fuel = n + 1 := Nat.exists_eq_add_one.2 (by simp at hfuel; omega)
    obtain ⟨hop, hdrop'⟩ := memory_of_drop hdrop
    obtain ⟨htype, -⟩ := memory_of_drop hdrop'
    refine ⟨[otherLiteral depth t], ?_, by rw [List.any_cons, hother]; rfl⟩
    rw [exprWith, readAt_eq_ok.2 hop, ok_bind, if_neg (by decide), if_neg (by decide), if_pos rfl,
      readAt_eq_ok.2 htype, ok_bind, if_neg ht]
    rfl
  | @right rest left _ ih =>
    intro fuel p depth hfuel hdrop
    rw [List.length_cons, List.length_append] at hfuel
    obtain ⟨fuel, rfl⟩ : ∃ n, fuel = n + 1 := Nat.exists_eq_add_one.2 (by omega)
    obtain ⟨hop, hdrop'⟩ := memory_of_drop hdrop
    have hleft : exprWith payload otherLiteral (memory b) b.length fuel (p + 1) (depth + 1) =
        .ok (p + 1 + left.encode.length, left.nodes shown (depth + 1)) :=
      exprWith_encode hpayload left (by omega) (p + 1) (depth + 1)
        (holds_memory_of_isPrefix (hdrop' ▸ List.prefix_append _ _))
    have hfuel' : rest.length ≤ fuel := by omega
    obtain ⟨ns, hright, hstop⟩ := ih (p := p + 1 + left.encode.length) (depth + 1) hfuel'
      (by rw [← List.drop_drop, hdrop', List.drop_left])
    refine ⟨.concatenate depth :: (left.nodes shown (depth + 1) ++ ns), ?_, ?_⟩
    · rw [exprWith, readAt_eq_ok.2 hop, ok_bind, if_pos rfl, hleft, ok_bind]
      show (exprWith payload otherLiteral (memory b) b.length fuel (p + 1 + left.encode.length)
        (depth + 1) >>= _) = _
      rw [hright]
      rfl
    · rw [List.any_cons, List.any_append, hstop, Bool.or_true, Bool.or_true]

/-- The nodes of an expression report no stop. -/
theorem any_isStop_nodes (shown : List UInt8 → List UInt8) (t : Tree) (depth : ℕ) :
    (t.nodes shown depth).any Node.isStop = false := by
  induction t generalizing depth with
  | concatenate left right ihl ihr =>
    rw [Tree.nodes, List.any_cons, List.any_append, ihl, ihr]
    rfl
  | field ctx name => rfl
  | text2 charset text => rfl

end Decoder

/-! ### Columns -/

section Columns

variable {expr : ℕ → ℕ → ℕ → Except Fault (ℕ × List Node)} {version : UInt8} {body : List UInt8}
  {fuel : ℕ}

/-- The check for `blr_eoc` never faults: a column is decoded when its expression is. -/
theorem column_of_expr {p : ℕ} {ns : List Node} (h : expr fuel 1 1 = .ok (p, ns)) :
    ∃ r, column expr (version :: body) fuel = .ok r ∧ r.cursor = p ∧ r.nodes = ns := by
  have hversion : readAt (memory (version :: body)) 0 = .ok version := rfl
  rw [column, hversion, ok_bind, h, ok_bind]
  by_cases hp : p < (version :: body).length
  · have hread : readAt (memory (version :: body)) p = .ok (version :: body)[p] :=
      readAt_eq_ok.2 (List.getElem?_eq_getElem hp)
    refine ⟨⟨version = blrVersion5, ns, p, (version :: body)[p] = blrEoc⟩, ?_, rfl, rfl⟩
    dsimp only
    rw [if_pos hp, hread]
    rfl
  · refine ⟨⟨version = blrVersion5, ns, p, false⟩, ?_, rfl, rfl⟩
    dsimp only
    rw [if_neg hp]
    rfl

theorem expr_of_column {r : Report} (h : column expr (version :: body) fuel = .ok r) :
    expr fuel 1 1 = .ok (r.cursor, r.nodes) := by
  obtain ⟨v, -, h⟩ := bind_eq_ok.1 h
  obtain ⟨⟨p, ns⟩, hexpr, h⟩ := bind_eq_ok.1 h
  rw [hexpr]
  dsimp only at h
  split_ifs at h with hp
  · obtain ⟨x, -, h⟩ := bind_eq_ok.1 h
    obtain rfl := Except.ok.inj h
    rfl
  · obtain rfl := Except.ok.inj h
    rfl

/-- **When a decoder stays inside its input**, for any way of reading names and texts that works
wherever they are in memory: on the decodable strings. -/
theorem staysInside_exprWith_iff {payload : ℕ → ℕ → Except Fault (List UInt8)}
    {otherLiteral : ℕ → UInt8 → Node} {shown : List UInt8 → List UInt8}
    (hother : ∀ depth t, (otherLiteral depth t).isStop = true)
    (hpayload : ∀ p x s, Holds (memory (version :: body)) p (x :: s) →
      payload (p + 1) s.length = .ok (shown s)) :
    StaysInside (exprWith payload otherLiteral (memory (version :: body))
      (version :: body).length) (version :: body) ↔ Decodable body := by
  constructor
  · rintro ⟨bound, h⟩
    obtain ⟨r, hr, hinside⟩ := h bound le_rfl
    rcases exprWith_inside hother bound (expr_of_column hr) hinside.le with
      ⟨t, ht, -, -⟩ | ⟨hstops, -, -⟩
    · exact Or.inl ⟨t, ht⟩
    · exact Or.inr hstops
  · rintro (⟨t, ht⟩ | hstops)
    · refine ⟨t.encode.length, fun fuel hfuel ↦ ?_⟩
      have hrun : exprWith payload otherLiteral (memory (version :: body)) (version :: body).length
          fuel 1 1 = .ok (1 + t.encode.length, t.nodes shown 1) :=
        exprWith_encode hpayload t hfuel 1 1 (holds_memory_of_isPrefix ht)
      obtain ⟨r, hr, hcursor, hnodes⟩ := column_of_expr hrun
      have hnostop : r.nodes.any Node.isStop = false := by
        rw [hnodes]
        exact any_isStop_nodes shown t 1
      refine ⟨r, hr, ?_, fun h ↦ ?_, fun _ ↦ ⟨t, ?_⟩⟩
      · rw [hcursor, List.length_cons, Nat.add_comm]
        exact Nat.succ_le_succ ht.length_le
      · rw [hnostop] at h
        cases h
      · obtain ⟨rest, rfl⟩ := ht
        rw [hcursor, Nat.add_comm, List.take_succ_cons, List.drop_one, List.tail_cons,
          List.take_left]
    · refine ⟨body.length, fun fuel hfuel ↦ ?_⟩
      obtain ⟨ns, hrun, hstop⟩ := exprWith_stops hother hpayload hstops (p := 1) 1 hfuel rfl
      obtain ⟨r, hr, hcursor, rfl⟩ := column_of_expr hrun
      refine ⟨r, hr, hcursor.le, fun _ ↦ hcursor, fun h ↦ ?_⟩
      rw [hstop] at h
      cases h

end Columns

/-- A slice of a string that is in memory. -/
theorem slice_of_holds {m : Memory} {limit p : ℕ} {s : List UInt8} (h : Holds m p s)
    (hle : p + s.length ≤ limit) : slice m limit p s.length = .ok s := by
  rw [slice, if_pos hle]
  exact readBytes_of_holds h

/-- **The decoders of the four samples stay inside their input exactly on the decodable strings**:
behind the version byte there is a whole expression, or one in which an unknown opcode or literal
type stands where nothing is left to decode. The slice of the Go sample may have any spare bytes. -/
theorem staysInside_iff (version : UInt8) (body : List UInt8) :
    let b := version :: body
    (StaysInside (Cpp.expr (memory b) b.length) b ↔ Decodable body) ∧
      (StaysInside (FbCpp.expr (memory b) b.length) b ↔ Decodable body) ∧
      (StaysInside (Rust.expr b) b ↔ Decodable body) ∧
      ∀ spare, StaysInside (Go.expr b spare) b ↔ Decodable body := by
  intro b
  have hother : ∀ depth t, (Node.dtype depth t).isStop = true := fun _ _ ↦ rfl
  have hprintf : ∀ p x s, Holds (memory b) p (x :: s) →
      printString (memory b) (p + 1) s.length = .ok (cString s) :=
    fun _ _ _ h ↦ printString_of_holds h.2
  refine ⟨staysInside_exprWith_iff hother hprintf, staysInside_exprWith_iff hother hprintf, ?_,
    fun spare ↦ ?_⟩
  · exact staysInside_exprWith_iff hother fun p x s h ↦
      slice_of_holds h.2 (length_le_of_holds h)
  · refine staysInside_exprWith_iff hother fun p x s h ↦
      slice_of_holds (holds_append_memory spare h).2 ?_
    exact (length_le_of_holds h).trans (Nat.le_add_right _ _)

/-- **An unknown opcode in the first operand**: the cursor is moved to the end, and the second
operand is read from there. -/
theorem not_staysInside_concatenate_unknown :
    ¬ StaysInside (Cpp.expr (memory [5, 39, 0, 76]) 4) [5, 39, 0, 76] ∧
      ¬ StaysInside (FbCpp.expr (memory [5, 39, 0, 76]) 4) [5, 39, 0, 76] ∧
      ¬ StaysInside (Rust.expr [5, 39, 0, 76]) [5, 39, 0, 76] ∧
      ¬ StaysInside (Go.expr [5, 39, 0, 76] []) [5, 39, 0, 76] := by
  refine ⟨?_, ?_, ?_, ?_⟩ <;>
    · rintro ⟨bound, h⟩
      obtain ⟨r, hr, -⟩ := h (bound + 2) (by omega)
      cases hr

end FirebirdSamples.Blr
