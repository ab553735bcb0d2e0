import LsmStore.Foundation.Layers

/-!
# Least recently used

A store of bounded weight that drops what was used longest ago.  Abstractly it is a
list of keyed items, the least recently used first: a use moves an item to the end, and
a new item is put at the end, after which items are dropped from the front until the
rest fits.

What is dropped is the shortest front that restores the bound (`trim_eq_drop`), and the
keys stand in the order of their last uses: they are a sublist of the uses without all
but the last use of each key (`dedup_concat`, `keys_promote_sublist`,
`keys_store_sublist`).
-/

set_option autoImplicit false

namespace LsmStore.Foundation.Lru

/-- Keyed items, the least recently used first. -/
abbrev Items (K V : Type) : Type := List (Sigma fun _ : K => V)

section Trimming

variable {K V : Type} (size : V → Nat)

/-- What the items weigh. -/
def total (items : Items K V) : Nat := (items.map fun item => size item.2).sum

/-- Drops items from the front until the rest weighs no more than the bound. -/
def trim (bound : Nat) : Items K V → Items K V
  | [] => []
  | item :: rest => if total size (item :: rest) ≤ bound then item :: rest else trim bound rest

variable {size}

@[simp] theorem total_cons (item : Sigma fun _ : K => V) (items : Items K V) :
    total size (item :: items) = size item.2 + total size items := by
  simp [total]

@[simp] theorem total_append (first second : Items K V) :
    total size (first ++ second) = total size first + total size second := by
  simp [total]

/-- **The shortest front goes:** with one item less dropped the rest would not fit. -/
theorem trim_eq_drop (bound : Nat) (items : Items K V) :
    ∃ count, trim size bound items = items.drop count ∧
      ∀ fewer < count, bound < total size (items.drop fewer) := by
  induction items with
  | nil => exact ⟨0, rfl, fun _ impossible => absurd impossible (Nat.not_lt_zero _)⟩
  | cons item rest ih =>
      rw [trim]
      split
      · exact ⟨0, rfl, fun _ impossible => absurd impossible (Nat.not_lt_zero _)⟩
      · rename_i heavy
        obtain ⟨count, isDrop, least⟩ := ih
        refine ⟨count + 1, isDrop, ?_⟩
        intro fewer less
        cases fewer with
        | zero => exact Nat.lt_of_not_le heavy
        | succ fewer => exact least fewer (by omega)

theorem total_trim_le (bound : Nat) (items : Items K V) :
    total size (trim size bound items) ≤ bound := by
  induction items with
  | nil => exact Nat.zero_le _
  | cons item rest ih =>
      rw [trim]
      split
      · rename_i light
        exact light
      · exact ih

theorem trim_sublist (bound : Nat) (items : Items K V) :
    (trim size bound items).Sublist items := by
  obtain ⟨count, isDrop, _⟩ := @trim_eq_drop _ _ size bound items
  rw [isDrop]
  exact List.drop_sublist _ _

/-- The last item stays if it fits alone. -/
theorem mem_trim_concat {bound : Nat} (items : Items K V) {item : Sigma fun _ : K => V}
    (fits : size item.2 ≤ bound) : item ∈ trim size bound (items ++ [item]) := by
  induction items with
  | nil =>
      rw [List.nil_append, trim, if_pos (by simpa [total] using fits)]
      exact List.mem_cons_self
  | cons first rest ih =>
      rw [List.cons_append, trim]
      split
      · exact List.mem_cons_of_mem _ (by simp)
      · exact ih

end Trimming

section Using

variable {K V : Type} [DecidableEq K] (size : V → Nat)

/-- A use of a key: its item, if there is one, goes to the end. -/
def promote (key : K) (items : Items K V) : Items K V :=
  match items.dlookup key with
  | some value => items.kerase key ++ [⟨key, value⟩]
  | none => items

/-- A new item goes to the end, in place of an old one with its key, and the rest is made
to fit. -/
def store (bound : Nat) (key : K) (value : V) (items : Items K V) : Items K V :=
  trim size bound (items.kerase key ++ [⟨key, value⟩])

variable {size} {items : Items K V} {key : K} {value : V}

/-- With room for a new item, nothing is dropped. -/
theorem store_of_room {bound : Nat} (fresh : key ∉ items.keys)
    (room : total size items + size value ≤ bound) :
    store size bound key value items = items ++ [⟨key, value⟩] := by
  have light : total size (items ++ [⟨key, value⟩]) ≤ bound := by
    simpa [total] using room
  rw [store, List.kerase_of_notMem_keys fresh]
  cases items with
  | nil =>
      rw [List.nil_append, trim]
      exact if_pos light
  | cons item rest =>
      rw [List.cons_append, trim]
      exact if_pos light

theorem total_kerase (found : items.dlookup key = some value) :
    size value + total size (items.kerase key) = total size items := by
  induction items with
  | nil => cases found
  | cons item rest ih =>
      obtain ⟨other, held⟩ := item
      by_cases same : key = other
      · subst same
        rw [List.dlookup_cons_eq] at found
        cases found
        have erased : List.kerase key (⟨key, value⟩ :: rest : Items K V) = rest :=
          List.kerase_cons_eq rfl
        rw [erased, total_cons]
      · rw [List.dlookup_cons_ne _ _ same] at found
        rw [List.kerase_cons_ne same, total_cons, total_cons, ← ih found]
        omega

theorem le_total (found : items.dlookup key = some value) : size value ≤ total size items := by
  rw [← total_kerase found]
  exact Nat.le_add_right _ _

theorem total_promote (key : K) (items : Items K V) :
    total size (promote key items) = total size items := by
  rw [promote]
  cases found : items.dlookup key with
  | none => rfl
  | some value =>
      rw [← total_kerase found]
      simp [total, Nat.add_comm]

/-! ## Keys -/

theorem keys_replace (items : Items K V) (key : K) (value : V) :
    List.keys (items.kerase key ++ [⟨key, value⟩]) = items.keys.erase key ++ [key] := by
  rw [← List.keys_kerase]
  simp [List.keys]

theorem nodupKeys_replace (distinct : items.NodupKeys) (key : K) (value : V) :
    List.NodupKeys (items.kerase key ++ [⟨key, value⟩]) := by
  unfold List.NodupKeys
  rw [keys_replace]
  refine List.nodup_append.mpr ⟨distinct.erase key, List.nodup_singleton _, ?_⟩
  intro other member last isLast same
  rw [List.mem_singleton.mp isLast] at same
  subst same
  exact distinct.not_mem_erase member

theorem nodupKeys_promote (distinct : items.NodupKeys) (key : K) :
    (promote key items).NodupKeys := by
  rw [promote]
  split
  · exact nodupKeys_replace distinct key _
  · exact distinct

/-- A part of the items has the values of the whole. -/
theorem dlookup_of_sublist {part : Items K V} (isPart : part.Sublist items)
    (distinct : items.NodupKeys) (member : key ∈ part.keys) :
    part.dlookup key = items.dlookup key := by
  obtain ⟨value, isItem⟩ := List.exists_of_mem_keys member
  have inPart : part.dlookup key = some value :=
    List.mem_dlookup (distinct.sublist isPart) isItem
  have inItems : items.dlookup key = some value :=
    List.mem_dlookup distinct (isPart.subset isItem)
  rw [inPart, inItems]

/-! ## The order of the last uses -/

/-- With one use more, that use is the last of its key. -/
theorem dedup_concat (uses : List K) (key : K) :
    (uses ++ [key]).dedup = uses.dedup.erase key ++ [key] := by
  induction uses with
  | nil => simp
  | cons first rest ih =>
      rw [List.cons_append]
      by_cases again : first ∈ rest
      · rw [List.dedup_cons_of_mem (List.mem_append_left _ again), ih,
          List.dedup_cons_of_mem again]
      · rw [List.dedup_cons_of_notMem again]
        by_cases same : first = key
        · subst same
          rw [List.dedup_cons_of_mem (by simp), ih, List.erase_cons_head,
            List.erase_of_not_mem (by simpa using again)]
        · rw [List.dedup_cons_of_notMem (by simp [again, same]), ih,
            List.erase_cons_tail (by simpa using same), List.cons_append]

/-- The keys after a use of a key that is there. -/
theorem keys_replace_sublist {uses : List K} (ordered : items.keys.Sublist uses.dedup) (key : K)
    (value : V) :
    (List.keys (items.kerase key ++ [⟨key, value⟩])).Sublist (uses ++ [key]).dedup := by
  rw [keys_replace, dedup_concat]
  exact (ordered.erase key).append (List.Sublist.refl _)

theorem keys_promote_sublist {uses : List K} (ordered : items.keys.Sublist uses.dedup)
    (found : items.dlookup key = some value) :
    (promote key items).keys.Sublist (uses ++ [key]).dedup := by
  rw [promote, found]
  exact keys_replace_sublist ordered key value

theorem keys_store_sublist {uses : List K} (ordered : items.keys.Sublist uses.dedup) (bound : Nat)
    (key : K) (value : V) :
    (store size bound key value items).keys.Sublist (uses ++ [key]).dedup :=
  ((trim_sublist bound _).map _).trans (keys_replace_sublist ordered key value)

/-- So the keys are the last uses of what is there. -/
theorem keys_eq_filter {uses : List K} (ordered : items.keys.Sublist uses.dedup) :
    (uses.dedup.filter fun key => decide (key ∈ items.keys)) = items.keys := by
  have distinct : (uses.dedup.map id).Nodup := by simpa using uses.nodup_dedup
  simpa using filter_label_mem_eq ordered distinct

end Using

end LsmStore.Foundation.Lru
