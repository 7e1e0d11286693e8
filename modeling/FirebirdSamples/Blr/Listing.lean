import FirebirdSamples.Blr.Twins
import Mathlib

/-!
# The listing

The decoders print an expression as lines: one for each node, with the operands of a concatenation
behind it. The listing can be read again. A text stands there with its length, so that there may be
anything in it, and a name ends where its line does.

So the listing determines the expression, and with it the BLR, if no name has a line end
(`readTree_listing`). With line ends, two expressions may have one listing (`exists_same_listing`).
The C++ samples show names and texts up to the first NUL only, and Python shows all of them
(`listing_read`).
-/

namespace FirebirdSamples.Blr

open Fallible

/-! ### Printing -/

/-- The bytes of an ASCII text. -/
def ascii (s : String) : List UInt8 :=
  s.toList.map fun c ↦ UInt8.ofNat c.toNat

/-- `%u`. -/
def formatU (n : ℕ) : List UInt8 :=
  (Nat.toDigits 10 n).map fun c ↦ UInt8.ofNat c.toNat

/-- `%*s` with an empty string. -/
def indent (depth : ℕ) : List UInt8 :=
  List.replicate (depth * 3) 32

/-- The line of a node, as `printf` and `print` write it. -/
def Node.line : Node → List UInt8
  | concatenate depth => indent depth ++ ascii "blr_concatenate\n"
  | field depth ctx name =>
    indent depth ++ (ascii "blr_field context " ++ (formatU ctx.toNat ++ (ascii ", '" ++
      (name ++ ascii "'\n"))))
  | text2 depth charset len text =>
    indent depth ++ (ascii "blr_literal blr_text2 charset " ++ (formatU charset ++
      (ascii ", len " ++ (formatU len ++ (ascii ", \"" ++ (text ++ ascii "\"\n"))))))
  | dtype depth t =>
    indent depth ++ (ascii "blr_literal dtype " ++ (formatU t.toNat ++ ascii " ...\n"))
  | opcode depth op =>
    indent depth ++ (ascii "opcode " ++ (formatU op.toNat ++ ascii " (decoder stops here)\n"))

/-- All that is printed. -/
def listing (nodes : List Node) : List UInt8 :=
  nodes.flatMap Node.line

/-! ### Reading -/

/-- What stands behind a text. -/
def behind (s l : List UInt8) : Option (List UInt8) :=
  if s <+: l then some (l.drop s.length) else none

/-- `0` to `9`. -/
def isDigit (b : UInt8) : Bool :=
  48 ≤ b && b ≤ 57

/-- A number, and what stands behind it. -/
def readNumber (l : List UInt8) : ℕ × List UInt8 :=
  (Nat.ofDigitChars 10 ((l.takeWhile isDigit).map fun b ↦ Char.ofNat b.toNat) 0,
    l.dropWhile isDigit)

/-- The rest of a line with a field: the name ends with the apostrophe at the end of the line. -/
def readField (l : List UInt8) : Option (Tree × List UInt8) := do
  let (ctx, l) := readNumber l
  let l ← behind (ascii ", '") l
  let name := (l.takeWhile (· ≠ 10)).dropLast
  if h : name.length ≤ 255 then
    some (.field (UInt8.ofNat ctx) ⟨name, h⟩, (l.dropWhile (· ≠ 10)).tail)
  else none

/-- The rest of a literal: its text has the length that stands in front of it. -/
def readText (l : List UInt8) : Option (Tree × List UInt8) := do
  let (charset, l) := readNumber l
  let l ← behind (ascii ", len ") l
  let (len, l) := readNumber l
  let l ← behind (ascii ", \"") l
  let text := l.take len
  let l ← behind (ascii "\"\n") (l.drop len)
  if h : text.length ≤ 65535 then some (.text2 (UInt16.ofNat charset) ⟨text, h⟩, l) else none

/-- What stands behind the indentation, with a way to read an operand. -/
def readLine (read : List UInt8 → Option (Tree × List UInt8)) (l : List UInt8) :
    Option (Tree × List UInt8) :=
  match behind (ascii "blr_concatenate\n") l with
  | some l => do
    let (left, l) ← read l
    let (right, l) ← read l
    some (.concatenate left right, l)
  | none =>
    match behind (ascii "blr_field context ") l with
    | some l => readField l
    | none => (behind (ascii "blr_literal blr_text2 charset ") l).bind readText

/-- An expression, and what stands behind it. The indentation is skipped. -/
def readTree : ℕ → List UInt8 → Option (Tree × List UInt8)
  | 0, _ => none
  | fuel + 1, l => readLine (readTree fuel) (l.dropWhile (· = 32))

/-! ### What is read -/

/-- No name has a line end. -/
def Tree.OneLine : Tree → Prop
  | concatenate left right => left.OneLine ∧ right.OneLine
  | field _ name => 10 ∉ name.1
  | text2 _ _ => True

instance Tree.decidableOneLine : (t : Tree) → Decidable t.OneLine
  | concatenate left right =>
    @instDecidableAnd _ _ (decidableOneLine left) (decidableOneLine right)
  | field _ name => inferInstanceAs (Decidable (10 ∉ name.1))
  | text2 _ _ => isTrue trivial

section Reading

variable {s s' l : List UInt8} {depth fuel : ℕ}

theorem behind_append : behind s (s ++ l) = some l := by
  rw [behind, if_pos (List.prefix_append _ _), List.drop_left]

/-- Two texts that differ within their first bytes. -/
theorem behind_eq_none (n : ℕ) (hs : n ≤ s.length) (hs' : n ≤ s'.length)
    (h : s.take n ≠ s'.take n) : behind s (s' ++ l) = none := by
  refine if_neg fun hprefix ↦ h ?_
  obtain ⟨t, ht⟩ := hprefix
  have htake := congrArg (List.take n) ht
  rwa [List.take_append_of_le_length hs, List.take_append_of_le_length hs'] at htake

theorem isDigit_of_mem_toDigits {n : ℕ} {c : Char} (hc : c ∈ Nat.toDigits 10 n) :
    isDigit (UInt8.ofNat c.toNat) = true ∧ Char.ofNat (UInt8.ofNat c.toNat).toNat = c := by
  have hdigit := Nat.isDigit_of_mem_toDigits (by omega) (by omega) hc
  have hrange : 48 ≤ c.toNat ∧ c.toNat ≤ 57 := by
    simpa [Char.isDigit, Char.le_def, UInt32.le_iff_toNat_le] using hdigit
  have htoNat : (UInt8.ofNat c.toNat).toNat = c.toNat := by
    rw [UInt8.toNat_ofNat', Nat.mod_eq_of_lt (by omega)]
  constructor
  · simp only [isDigit, Bool.and_eq_true, decide_eq_true_eq, UInt8.le_iff_toNat_le, htoNat]
    exact hrange
  · rw [htoNat, Char.ofNat_toNat]

theorem readNumber_formatU (n : ℕ) (hl : ∀ x ∈ l.head?, isDigit x = false) :
    readNumber (formatU n ++ l) = (n, l) := by
  have hall : ∀ b ∈ formatU n, isDigit b = true := by
    intro b hb
    obtain ⟨c, hc, rfl⟩ := List.mem_map.1 hb
    exact (isDigit_of_mem_toDigits hc).1
  have hmap : (formatU n).map (fun b ↦ Char.ofNat b.toNat) = Nat.toDigits 10 n := by
    rw [formatU, List.map_map]
    exact (List.map_congr_left fun c hc ↦ (isDigit_of_mem_toDigits hc).2).trans (List.map_id' _)
  have htake : l.takeWhile isDigit = [] := by
    rcases l with _ | ⟨x, l⟩
    · rfl
    · exact List.takeWhile_cons_of_neg (by simp [hl x rfl])
  have hdrop : l.dropWhile isDigit = l := by
    rcases l with _ | ⟨x, l⟩
    · rfl
    · exact List.dropWhile_cons_of_neg (by simp [hl x rfl])
  rw [readNumber, List.takeWhile_append_of_pos hall, List.dropWhile_append_of_pos hall, htake,
    hdrop, List.append_nil, hmap, Nat.ofDigitChars_ten_toDigits]

theorem dropWhile_indent {x : UInt8} (hs : s.head? = some x) (hx : x ≠ 32) :
    (indent depth ++ (s ++ l)).dropWhile (· = 32) = s ++ l := by
  have hindent : ∀ b ∈ indent depth, decide (b = 32) = true := by
    intro b hb
    rw [List.eq_of_mem_replicate hb]
    rfl
  obtain ⟨s', rfl⟩ : ∃ s', s = x :: s' := List.head?_eq_some_iff.1 hs
  rw [List.dropWhile_append_of_pos hindent]
  refine List.dropWhile_cons_of_neg ?_
  rwa [decide_eq_true_eq]

section Line

variable {read : List UInt8 → Option (Tree × List UInt8)}

theorem readLine_concatenate {left right : Tree} {l' l'' : List UInt8}
    (hleft : read l = some (left, l')) (hright : read l' = some (right, l'')) :
    readLine read (ascii "blr_concatenate\n" ++ l) = some (.concatenate left right, l'') := by
  rw [readLine, behind_append]
  simp only [hleft, hright, Option.bind_eq_bind, Option.bind_some]

theorem readLine_field : readLine read (ascii "blr_field context " ++ l) = readField l := by
  rw [readLine, behind_eq_none 5 (by decide) (by decide) (by decide), behind_append]

theorem readLine_text2 :
    readLine read (ascii "blr_literal blr_text2 charset " ++ l) = readText l := by
  rw [readLine, behind_eq_none 5 (by decide) (by decide) (by decide),
    behind_eq_none 5 (by decide) (by decide) (by decide), behind_append]
  rfl

end Line

theorem readField_line (ctx : UInt8) (name : {s : List UInt8 // s.length ≤ 255})
    (hname : 10 ∉ name.1) :
    readField (formatU ctx.toNat ++ (ascii ", '" ++ (name.1 ++ (ascii "'\n" ++ l)))) =
      some (.field ctx name, l) := by
  have hline : ∀ b ∈ name.1 ++ [39], decide (b ≠ 10) = true := by
    intro b hb
    rw [decide_eq_true_eq]
    rintro rfl
    rcases List.mem_append.1 hb with h | h
    · exact hname h
    · simp at h
  have hsplit : name.1 ++ (ascii "'\n" ++ l) = (name.1 ++ [39]) ++ 10 :: l := by
    rw [List.append_assoc]
    rfl
  have htake : ((name.1 ++ [39]) ++ 10 :: l).takeWhile (· ≠ 10) = name.1 ++ [39] := by
    rw [List.takeWhile_append_of_pos hline]
    exact List.append_nil _
  have hdrop : ((name.1 ++ [39]) ++ 10 :: l).dropWhile (· ≠ 10) = 10 :: l :=
    List.dropWhile_append_of_pos hline
  rw [readField, readNumber_formatU _ (by rintro x ⟨⟩; rfl)]
  simp only [behind_append, Option.bind_eq_bind, Option.bind_some, hsplit, htake, hdrop,
    List.dropLast_concat, List.tail_cons]
  rw [dif_pos name.2, UInt8.ofNat_toNat]

theorem readText_line (charset : UInt16) (text : {s : List UInt8 // s.length ≤ 65535}) :
    readText (formatU charset.toNat ++ (ascii ", len " ++ (formatU text.1.length ++ (ascii ", \"" ++
      (text.1 ++ (ascii "\"\n" ++ l)))))) = some (.text2 charset text, l) := by
  have htext : (text.1 ++ (ascii "\"\n" ++ l)).take text.1.length = text.1 := List.take_left
  have hdrop : (text.1 ++ (ascii "\"\n" ++ l)).drop text.1.length = ascii "\"\n" ++ l :=
    List.drop_left
  rw [readText, readNumber_formatU _ (by rintro x ⟨⟩; rfl)]
  simp only [behind_append, Option.bind_eq_bind, Option.bind_some]
  rw [readNumber_formatU _ (by rintro x ⟨⟩; rfl)]
  simp only [behind_append, Option.bind_some, hdrop]
  rw [dif_pos (by rw [htext]; exact text.2), UInt16.ofNat_toNat]
  simp only [htext]

/-- **The listing is read back**, one line after the other, in the order of the prefix form. -/
theorem readTree_listing (t : Tree) (hnames : t.OneLine) (hfuel : t.encode.length ≤ fuel)
    (depth : ℕ) (l : List UInt8) :
    readTree fuel (listing (t.nodes id depth) ++ l) = some (t, l) := by
  induction t generalizing fuel depth l with
  | concatenate left right ihl ihr =>
    have hlength : (left.concatenate right).encode.length =
        left.encode.length + right.encode.length + 1 := by
      rw [Tree.encode, List.length_cons, List.length_append]
    have hleft := left.one_le_length_encode
    have hright := right.one_le_length_encode
    obtain ⟨fuel, rfl⟩ : ∃ n, fuel = n + 1 := Nat.exists_eq_add_one.2 (by omega)
    have hlisting : listing ((left.concatenate right).nodes id depth) ++ l =
        indent depth ++ (ascii "blr_concatenate\n" ++ (listing (left.nodes id (depth + 1)) ++
          (listing (right.nodes id (depth + 1)) ++ l))) := by
      simp only [listing, Tree.nodes, List.flatMap_cons, List.flatMap_append, Node.line,
        List.append_assoc]
    rw [hlisting, readTree, dropWhile_indent (x := 98) rfl (by decide)]
    exact readLine_concatenate (ihl hnames.1 (by omega) _ _) (ihr hnames.2 (by omega) _ _)
  | field ctx name =>
    obtain ⟨fuel, rfl⟩ : ∃ n, fuel = n + 1 :=
      Nat.exists_eq_add_one.2 (Nat.le_trans (Tree.one_le_length_encode _) hfuel)
    simp only [listing, Tree.nodes, List.flatMap_cons, List.flatMap_nil, Node.line,
      List.append_assoc, List.nil_append, id]
    rw [readTree, dropWhile_indent (x := 98) rfl (by decide), readLine_field]
    exact readField_line ctx name hnames
  | text2 charset text =>
    obtain ⟨fuel, rfl⟩ : ∃ n, fuel = n + 1 :=
      Nat.exists_eq_add_one.2 (Nat.le_trans (Tree.one_le_length_encode _) hfuel)
    simp only [listing, Tree.nodes, List.flatMap_cons, List.flatMap_nil, Node.line,
      List.append_assoc, List.nil_append, id]
    rw [readTree, dropWhile_indent (x := 98) rfl (by decide), readLine_text2]
    exact readText_line charset text

end Reading

/-! ### What can be read -/

section Sound

variable {s l l' : List UInt8} {t : Tree} {fuel : ℕ}

/-- An expression that is read out of `l`: what it consists of stands there, no name has a line end,
and `l'` is what is left. -/
structure ReadFrom (l : List UInt8) (t : Tree) (l' : List UInt8) : Prop where
  texts : ∀ s ∈ t.texts, s ⊆ l
  rest : l' ⊆ l
  oneLine : t.OneLine

theorem ReadFrom.mono (h : ReadFrom s t l') (hl : s ⊆ l) : ReadFrom l t l' where
  texts u hu := List.Subset.trans (h.texts u hu) hl
  rest := List.Subset.trans h.rest hl
  oneLine := h.oneLine

theorem subset_of_behind (h : behind s l = some l') : l' ⊆ l := by
  rw [behind] at h
  split_ifs at h
  obtain rfl := Option.some.inj h
  exact List.drop_subset _ _

theorem readNumber_subset : (readNumber l).2 ⊆ l :=
  (List.dropWhile_suffix _).subset

theorem readFrom_of_readField (h : readField l = some (t, l')) : ReadFrom l t l' := by
  rw [readField] at h
  simp only [Option.bind_eq_bind, Option.bind_eq_some_iff] at h
  obtain ⟨l₁, h₁, h⟩ := h
  have hsub := List.Subset.trans (subset_of_behind h₁) readNumber_subset
  split_ifs at h
  obtain ⟨rfl, rfl⟩ := Prod.mk.inj (Option.some.inj h)
  refine ReadFrom.mono ⟨fun u hu ↦ ?_, ?_, fun hmem ↦ ?_⟩ hsub
  · rw [List.mem_singleton.1 hu]
    exact List.Subset.trans (List.dropLast_subset _) (List.takeWhile_subset _)
  · exact List.Subset.trans (List.tail_subset _) (List.dropWhile_suffix _).subset
  · have := List.mem_takeWhile_imp (List.dropLast_subset _ hmem)
    simp at this

theorem readFrom_of_readText (h : readText l = some (t, l')) : ReadFrom l t l' := by
  rw [readText] at h
  simp only [Option.bind_eq_bind, Option.bind_eq_some_iff] at h
  obtain ⟨l₁, h₁, l₂, h₂, l₃, h₃, h⟩ := h
  have hsub := List.Subset.trans (subset_of_behind h₂) (List.Subset.trans readNumber_subset
    (List.Subset.trans (subset_of_behind h₁) readNumber_subset))
  split_ifs at h
  obtain ⟨rfl, rfl⟩ := Prod.mk.inj (Option.some.inj h)
  refine ReadFrom.mono ⟨fun u hu ↦ ?_, ?_, trivial⟩ hsub
  · rw [List.mem_singleton.1 hu]
    exact List.take_subset _ _
  · exact List.Subset.trans (subset_of_behind h₃) (List.drop_subset _ _)

/-- Whatever is read consists of what stands there. -/
theorem readFrom_of_readTree (h : readTree fuel l = some (t, l')) : ReadFrom l t l' := by
  induction fuel generalizing l t l' with
  | zero => cases h
  | succ fuel ih =>
    rw [readTree] at h
    refine ReadFrom.mono (s := l.dropWhile (· = 32)) ?_ (List.dropWhile_suffix _).subset
    generalize l.dropWhile (· = 32) = l at h ⊢
    rw [readLine] at h
    split at h
    next l₁ h₁ =>
      simp only [Option.bind_eq_bind, Option.bind_eq_some_iff] at h
      obtain ⟨⟨left, l₂⟩, hleft, ⟨right, l₃⟩, hright, h⟩ := h
      obtain ⟨rfl, rfl⟩ := Prod.mk.inj (Option.some.inj h)
      have hleft := ih hleft
      have hright := (ih hright).mono hleft.rest
      refine ReadFrom.mono ⟨fun u hu ↦ ?_, hright.rest, hleft.oneLine, hright.oneLine⟩
        (subset_of_behind h₁)
      exact (List.mem_append.1 hu).elim (hleft.texts u) (hright.texts u)
    next =>
      split at h
      next l₁ h₁ => exact (readFrom_of_readField h).mono (subset_of_behind h₁)
      next =>
        obtain ⟨l₁, h₁, h⟩ := Option.bind_eq_some_iff.1 h
        exact (readFrom_of_readText h).mono (subset_of_behind h₁)

end Sound

/-! ### The samples -/

section Samples

variable {t : Tree} {depth fuel : ℕ}

/-- Nothing is lost if there is no NUL. -/
theorem nodes_cString (h : ∀ s ∈ t.texts, 0 ∉ s) : t.nodes cString depth = t.nodes id depth := by
  induction t generalizing depth with
  | concatenate left right ihl ihr =>
    rw [Tree.nodes, Tree.nodes, ihl fun s hs ↦ h s (List.mem_append_left _ hs),
      ihr fun s hs ↦ h s (List.mem_append_right _ hs)]
  | field ctx name => rw [Tree.nodes, Tree.nodes, cString_eq_self (h _ List.mem_cons_self), id]
  | text2 charset text => rw [Tree.nodes, Tree.nodes, cString_eq_self (h _ List.mem_cons_self), id]

theorem zero_notMem_formatU (n : ℕ) : 0 ∉ formatU n := by
  intro h
  obtain ⟨c, hc, hzero⟩ := List.mem_map.1 h
  have hdigit := (isDigit_of_mem_toDigits hc).1
  rw [hzero] at hdigit
  cases hdigit

theorem zero_notMem_indent : 0 ∉ indent depth := by
  intro h
  cases List.eq_of_mem_replicate h

theorem zero_notMem_cString (s : List UInt8) : 0 ∉ cString s := by
  intro h
  have := List.mem_takeWhile_imp h
  simp at this

/-- No NUL is printed. -/
theorem zero_notMem_listing (t : Tree) (depth : ℕ) : 0 ∉ listing (t.nodes cString depth) := by
  induction t generalizing depth with
  | concatenate left right ihl ihr =>
    have hline : 0 ∉ ascii "blr_concatenate\n" := by decide
    simp only [listing, Tree.nodes, List.flatMap_cons, List.flatMap_append, Node.line,
      List.mem_append, not_or] at ihl ihr ⊢
    exact ⟨⟨zero_notMem_indent, hline⟩, ihl _, ihr _⟩
  | field ctx name =>
    simp only [listing, Tree.nodes, List.flatMap_cons, List.flatMap_nil, Node.line,
      List.append_nil, List.mem_append, not_or]
    exact ⟨zero_notMem_indent, by decide, zero_notMem_formatU _, by decide,
      zero_notMem_cString _, by decide⟩
  | text2 charset text =>
    simp only [listing, Tree.nodes, List.flatMap_cons, List.flatMap_nil, Node.line,
      List.append_nil, List.mem_append, not_or]
    exact ⟨zero_notMem_indent, by decide, zero_notMem_formatU _, by decide, zero_notMem_formatU _,
      by decide, zero_notMem_cString _, by decide⟩

/-- What the C++ samples print can be read again exactly if no name has a line end, and neither a
name nor a text has a NUL. -/
theorem readTree_cString_iff (hfuel : t.encode.length ≤ fuel) :
    readTree fuel (listing (t.nodes cString depth)) = some (t, []) ↔
      t.OneLine ∧ ∀ s ∈ t.texts, 0 ∉ s := by
  constructor
  · intro h
    have hread := readFrom_of_readTree h
    exact ⟨hread.oneLine, fun s hs hzero ↦ zero_notMem_listing t depth (hread.texts s hs hzero)⟩
  · rintro ⟨hnames, hnul⟩
    have hread := readTree_listing t hnames hfuel depth []
    rwa [List.append_nil, ← nodes_cString hnul] at hread

/-- Everything the Python sample prints can be read again exactly if no name has a line end. -/
theorem readTree_id_iff (hfuel : t.encode.length ≤ fuel) :
    readTree fuel (listing (t.nodes id depth)) = some (t, []) ↔ t.OneLine := by
  refine ⟨fun h ↦ (readFrom_of_readTree h).oneLine, fun hnames ↦ ?_⟩
  have hread := readTree_listing t hnames hfuel depth []
  rwa [List.append_nil] at hread

/-- The listing determines the expression. -/
theorem eq_of_listing_eq {t' : Tree} (ht : t.OneLine) (ht' : t'.OneLine)
    (h : listing (t.nodes id depth) = listing (t'.nodes id depth)) : t = t' := by
  have hread : readTree (max t.encode.length t'.encode.length) (listing (t.nodes id depth)) =
      some (t, []) := (readTree_id_iff (Nat.le_max_left _ _)).2 ht
  rw [h, (readTree_id_iff (Nat.le_max_right _ _)).2 ht'] at hread
  exact (Prod.mk.inj (Option.some.inj hread)).1.symm

/-- With a line end in a name it need not. -/
theorem exists_same_listing : ∃ t t' : Tree, t ≠ t' ∧
    listing (t.nodes id 1) = listing (t'.nodes id 1) := by
  let short (x : UInt8) : {s : List UInt8 // s.length ≤ 255} := ⟨[x], by simp⟩
  let long (x y : UInt8) : {s : List UInt8 // s.length ≤ 255} :=
    ⟨x :: (ascii "'\n" ++ (indent 2 ++ (ascii "blr_field context 0, '" ++ [y]))),
      by simp [ascii, indent]⟩
  refine ⟨.concatenate (.field 0 (long 65 66)) (.field 0 (short 67)),
    .concatenate (.field 0 (short 65)) (.field 0 (long 66 67)), ?_, ?_⟩
  · intro h
    have hname := congrArg Tree.texts h
    revert hname
    decide
  · decide

/-- **What the samples print of an expression** can be read again, to the last byte: what the C++
samples print exactly if no name has a line end, and no name or text a NUL; what the Python sample
prints, if it does, exactly if no name has a line end. -/
theorem listing_read (start : List UInt8) (t : Tree) (stop frames depth : ℕ)
    (hfuel : t.encode.length ≤ fuel) :
    let b := start ++ (t.encode ++ [blrEoc])
    (∃ r, Cpp.expr (memory b) stop fuel start.length depth = .ok r ∧
      FbCpp.expr (memory b) stop fuel start.length depth = .ok r ∧
      (readTree fuel (listing r.2) = some (t, []) ↔ t.OneLine ∧ ∀ s ∈ t.texts, 0 ∉ s)) ∧
    ∀ r, Python.expr b frames start.length depth = .ok r →
      (readTree fuel (listing r.2) = some (t, []) ↔ t.OneLine) := by
  intro b
  have hholds := holds_expression start t
  have hcpp := (expr_encode t hholds stop depth hfuel).1
  refine ⟨⟨_, hcpp, hcpp, readTree_cString_iff hfuel⟩, fun r hr ↦ ?_⟩
  obtain ⟨-, -, rfl⟩ := (Python.expr_eq_ok_iff t hholds).1 hr
  exact readTree_id_iff hfuel

end Samples

/-- A text with a line end and a quotation mark. -/
theorem listing_read_quoted :
    let t : Tree := .concatenate (.field 0 ⟨ascii "FIRST_NAME", by decide⟩)
      (.text2 0 ⟨ascii "\"\n", by decide⟩)
    ∃ r, Cpp.expr (memory ([5] ++ (t.encode ++ [blrEoc]))) 30 30 1 1 = .ok r ∧
      readTree 30 (listing r.2) = some (t, []) := by
  intro t
  obtain ⟨⟨r, hr, -, hread⟩, -⟩ := listing_read [5] t 30 0 1 (show t.encode.length ≤ 30 by decide)
  exact ⟨r, hr, hread.2 ⟨by decide, by decide⟩⟩

end FirebirdSamples.Blr
