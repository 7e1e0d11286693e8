import Mathlib.Data.List.Nodup

/-!
# Dictionaries in insertion order

A dictionary is a list of entries without repeated keys. A key that is assigned again keeps its
place; a new one goes to the end. Every operation below hands back a dictionary, so that no proof
about a program that uses one has to show again that its keys are distinct.

`get?_eq_some_iff` ties the lookup to the list of entries. The lemmas about the operations say what
they do to the keys and to the lookup, or, for a new key, to the entries.
-/

/-- **A dictionary**: entries in the order of insertion, each key once. -/
structure Dict (κ β : Type) where
  /-- The entries. -/
  entries : List (κ × β)
  /-- No key is repeated. -/
  nodup_keys : (entries.map Prod.fst).Nodup

namespace Dict

variable {κ β γ : Type}

/-- The keys, in order. -/
def keys (d : Dict κ β) : List κ :=
  d.entries.map Prod.fst

/-- The empty dictionary. -/
def empty : Dict κ β where
  entries := []
  nodup_keys := List.nodup_nil

/-- A dictionary of one entry. -/
def single (k : κ) (v : β) : Dict κ β where
  entries := [(k, v)]
  nodup_keys := List.nodup_singleton k

/-- A new entry at the end. -/
def push (d : Dict κ β) (k : κ) (v : β) (h : k ∉ d.keys) : Dict κ β where
  entries := d.entries ++ [(k, v)]
  nodup_keys := by
    rw [List.map_append, List.nodup_append']
    exact ⟨d.nodup_keys, List.nodup_singleton k, List.disjoint_singleton.2 h⟩

/-- Every value replaced, in the light of its key. -/
def mapEntries (d : Dict κ β) (f : κ → β → γ) : Dict κ γ where
  entries := d.entries.map fun e ↦ (e.1, f e.1 e.2)
  nodup_keys := by
    rw [List.map_map]
    exact d.nodup_keys

@[simp] theorem keys_mapEntries (d : Dict κ β) (f : κ → β → γ) :
    (d.mapEntries f).keys = d.keys := by
  rw [keys, mapEntries, List.map_map]
  rfl

variable [DecidableEq κ]

/-- `d.get(k)`. -/
def get? (d : Dict κ β) (k : κ) : Option β :=
  d.entries.lookup k

/-- The value of a present key, replaced. -/
def modify (d : Dict κ β) (k : κ) (f : β → β) : Dict κ β :=
  d.mapEntries fun k' v ↦ if k' = k then f v else v

/-- `d.setdefault(k, v)`. -/
def setdefault (d : Dict κ β) (k : κ) (v : β) : Dict κ β :=
  if h : k ∈ d.keys then d else d.push k v h

/-- `d[k] = v`. -/
def insert (d : Dict κ β) (k : κ) (v : β) : Dict κ β :=
  if h : k ∈ d.keys then d.modify k fun _ ↦ v else d.push k v h

/-! ### Lookup -/

theorem get?_eq_some_iff {d : Dict κ β} {k : κ} {v : β} :
    d.get? k = some v ↔ (k, v) ∈ d.entries := by
  obtain ⟨entries, hnodup⟩ := d
  show entries.lookup k = some v ↔ (k, v) ∈ entries
  induction entries with
  | nil => simp
  | cons e entries ih =>
    obtain ⟨k', v'⟩ := e
    obtain ⟨hhead, htail⟩ := List.nodup_cons.1 hnodup
    rw [List.lookup_cons]
    by_cases hk : k = k'
    · obtain rfl := hk
      have hout : (k, v) ∉ entries := fun h ↦ hhead (List.mem_map.2 ⟨_, h, rfl⟩)
      simp [hout, eq_comm]
    · rw [beq_eq_false_iff_ne.2 hk, List.mem_cons, Prod.mk.injEq]
      simp only [hk, false_and, false_or]
      exact ih htail

theorem get?_eq_none_iff {d : Dict κ β} {k : κ} : d.get? k = none ↔ k ∉ d.keys := by
  rw [get?, List.lookup_eq_none_iff, keys, List.mem_map]
  constructor
  · rintro h ⟨p, hp, rfl⟩
    exact absurd rfl (bne_iff_ne.1 (h p hp))
  · exact fun h p hp ↦ bne_iff_ne.2 fun heq ↦ h ⟨p, hp, heq.symm⟩

/-- **A dictionary is its keys in order and its lookup.** -/
theorem ext_get? {d d' : Dict κ β} (hkeys : d.keys = d'.keys) (hget : ∀ k, d.get? k = d'.get? k) :
    d = d' := by
  have hlength : d.entries.length = d'.entries.length := by
    have := congrArg List.length hkeys
    rwa [keys, keys, List.length_map, List.length_map] at this
  have hentries : d.entries = d'.entries := by
    refine List.ext_getElem hlength fun i hi hi' ↦ ?_
    have hkey : d.entries[i].1 = d'.entries[i].1 := by
      have := List.getElem_of_eq hkeys (by rwa [keys, List.length_map])
      simpa only [keys, List.getElem_map] using this
    have hleft : d.get? d.entries[i].1 = some d.entries[i].2 :=
      get?_eq_some_iff.2 (List.getElem_mem hi)
    have hright : d'.get? d'.entries[i].1 = some d'.entries[i].2 :=
      get?_eq_some_iff.2 (List.getElem_mem hi')
    rw [hget, hkey, hright] at hleft
    exact Prod.ext hkey (Option.some.inj hleft).symm
  obtain ⟨entries, hnodup⟩ := d
  obtain ⟨entries', hnodup'⟩ := d'
  congr

/-! ### The operations -/

theorem insert_of_notMem {d : Dict κ β} {k : κ} (h : k ∉ d.keys) (v : β) :
    (d.insert k v).entries = d.entries ++ [(k, v)] := by
  rw [insert, dif_neg h]
  rfl

@[simp] theorem get?_mapEntries (d : Dict κ β) (f : κ → β → γ) (k : κ) :
    (d.mapEntries f).get? k = (d.get? k).map (f k) := by
  rcases hk : d.get? k with _ | v
  · rw [get?_eq_none_iff] at hk
    rw [Option.map_none, get?_eq_none_iff, keys_mapEntries]
    exact hk
  · rw [Option.map_some, get?_eq_some_iff]
    exact List.mem_map.2 ⟨(k, v), get?_eq_some_iff.1 hk, rfl⟩

theorem get?_modify (d : Dict κ β) (k k' : κ) (f : β → β) :
    (d.modify k f).get? k' = if k' = k then (d.get? k').map f else d.get? k' := by
  rw [modify, get?_mapEntries]
  split_ifs
  · rfl
  · exact Option.map_id_apply

@[simp] theorem keys_modify (d : Dict κ β) (k : κ) (f : β → β) : (d.modify k f).keys = d.keys :=
  keys_mapEntries d _

theorem keys_setdefault (d : Dict κ β) (k : κ) (v : β) :
    (d.setdefault k v).keys = if k ∈ d.keys then d.keys else d.keys ++ [k] := by
  rw [setdefault]
  split_ifs
  · rfl
  · exact List.map_append

theorem get?_push {d : Dict κ β} {k : κ} (h : k ∉ d.keys) (v : β) (k' : κ) :
    (d.push k v h).get? k' = if k' = k then some v else d.get? k' := by
  show (d.entries ++ [(k, v)]).lookup k' = _
  rw [List.lookup_append]
  show (d.get? k').or _ = _
  split_ifs with hk
  · obtain rfl := hk
    rw [get?_eq_none_iff.2 h]
    simp
  · rcases d.get? k' with _ | w <;> simp [hk]

theorem get?_setdefault (d : Dict κ β) (k k' : κ) (v : β) :
    (d.setdefault k v).get? k' = if k' = k then some ((d.get? k').getD v) else d.get? k' := by
  by_cases hmem : k ∈ d.keys
  · rw [setdefault, dif_pos hmem]
    split_ifs with hk
    · obtain rfl := hk
      rcases hget : d.get? k' with _ | w
      · exact absurd hmem (get?_eq_none_iff.1 hget)
      · rfl
    · rfl
  · rw [setdefault, dif_neg hmem, get?_push]
    split_ifs with hk
    · obtain rfl := hk
      rw [get?_eq_none_iff.2 hmem, Option.getD_none]
    · rfl

theorem get?_insert (d : Dict κ β) (k k' : κ) (v : β) :
    (d.insert k v).get? k' = if k' = k then some v else d.get? k' := by
  by_cases hmem : k ∈ d.keys
  · rw [insert, dif_pos hmem, get?_modify]
    split_ifs with hk
    · obtain rfl := hk
      rcases hget : d.get? k' with _ | w
      · exact absurd hmem (get?_eq_none_iff.1 hget)
      · rfl
    · rfl
  · rw [insert, dif_neg hmem, get?_push]

/-! ### Counting -/

/-- One more of a key. -/
def countUp (d : Dict κ ℕ) (k : κ) : Dict κ ℕ :=
  d.insert k ((d.get? k).getD 0 + 1)

/-- **What a dictionary of counters holds**: a key that has been counted, and how often. -/
theorem get?_foldl_countUp (l : List κ) (d : Dict κ ℕ) (k : κ) :
    (l.foldl countUp d).get? k =
      if k ∈ l then some ((d.get? k).getD 0 + l.count k) else d.get? k := by
  induction l generalizing d with
  | nil => rfl
  | cons k' l ih =>
    rw [List.foldl_cons, ih, countUp, get?_insert, List.count_cons]
    by_cases hk : k = k'
    · obtain rfl := hk
      rw [if_pos rfl, if_pos List.mem_cons_self, Option.getD_some, beq_self_eq_true, if_pos rfl]
      split_ifs with hmem
      · rw [Nat.add_right_comm, Nat.add_assoc]
      · rw [List.count_eq_zero_of_not_mem hmem]
    · rw [if_neg hk, beq_eq_false_iff_ne.2 (Ne.symm hk), if_neg Bool.false_ne_true, Nat.add_zero]
      simp only [List.mem_cons, hk, false_or]

end Dict
