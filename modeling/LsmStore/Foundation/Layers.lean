import Mathlib

/-!
# Reading through layers

A layered store is read front to back: the first layer that holds a key
answers.  The lemmas here say when a change of the list of layers cannot be
seen at a key.  The main one (`findSome?_replace`) replaces chosen layers by a
single one that answers for all of them: it holds when no layer that stays lies
behind a chosen layer holding the key, down to the place of the new layer.  While
some of the chosen layers are still there, `view_replace_part_iff` says exactly when
a reader can tell.
-/

set_option autoImplicit false

namespace LsmStore.Foundation

variable {T V R K : Type}

/-- Layers that answer alike are read alike. -/
theorem findSome?_congr {hit hit' : T → Option V} {layers : List T}
    (same : ∀ layer ∈ layers, hit layer = hit' layer) :
    layers.findSome? hit = layers.findSome? hit' := by
  induction layers with
  | nil => rfl
  | cons layer rest ih =>
      rw [List.findSome?_cons, List.findSome?_cons, same layer List.mem_cons_self,
        ih fun later member => same later (List.mem_cons_of_mem _ member)]

/-- Layers that come in groups are read group by group. -/
theorem findSome?_flatMap {S : Type} {hit : T → Option V} (group : S → List T) (indices : List S) :
    (indices.flatMap group).findSome? hit =
      indices.findSome? fun index => (group index).findSome? hit := by
  induction indices with
  | nil => rfl
  | cons index rest ih =>
      rw [List.flatMap_cons, List.findSome?_append, List.findSome?_cons, ih]
      cases (group index).findSome? hit <;> rfl

theorem findSome?_eq_none {hit : T → Option V} {layers : List T}
    (none_ : ∀ layer ∈ layers, hit layer = none) : layers.findSome? hit = none :=
  List.findSome?_eq_none_iff.mpr none_

/-- At most one of the layers holds anything. -/
def AtMostOneHit (hit : T → Option V) (layers : List T) : Prop :=
  layers.Pairwise fun first second => hit first = none ∨ hit second = none

/-- When at most one layer answers, the order of the layers does not matter. -/
theorem AtMostOneHit.findSome?_perm {hit : T → Option V} {left right : List T}
    (single : AtMostOneHit hit left) (perm : left.Perm right) :
    left.findSome? hit = right.findSome? hit := by
  induction perm with
  | nil => rfl
  | cons layer _ ih =>
      rw [List.findSome?_cons, List.findSome?_cons, ih (List.Pairwise.of_cons single)]
  | swap first second rest =>
      have apart := List.rel_of_pairwise_cons single (List.mem_cons_self (a := first) (l := rest))
      simp only [List.findSome?_cons]
      rcases apart with missing | missing
      · rw [missing]
      · rw [missing]
  | trans first _ ih ih' =>
      have symmetric : ∀ {a b : T}, (hit a = none ∨ hit b = none) → (hit b = none ∨ hit a = none) :=
        fun apart => apart.symm
      rw [ih single, ih' (first.pairwise single symmetric)]

/-- The answer of a list of layers is the answer of one of them. -/
theorem exists_of_findSome? {hit : T → Option V} {layers : List T} {value : V}
    (found : layers.findSome? hit = some value) : ∃ layer ∈ layers, hit layer = some value :=
  List.exists_of_findSome?_eq_some found

section Replace

variable {hit : T → Option V} {chosen : T → Bool}

/-- When no layer that stays lies behind a chosen layer that answers, the
answer is that of the staying layers if one of them answers, and that of the
chosen layers otherwise. -/
theorem findSome?_split {layers : List T}
    (order : layers.Pairwise fun first second =>
      chosen first = true → chosen second = false → hit first ≠ none → hit second = none) :
    layers.findSome? hit =
      ((layers.filter fun layer => !chosen layer).findSome? hit).or
        ((layers.filter chosen).findSome? hit) := by
  induction layers with
  | nil => rfl
  | cons layer rest ih =>
      have others := ih (List.Pairwise.of_cons order)
      cases isChosen : chosen layer with
      | false =>
          rw [List.filter_cons_of_pos (by simp [isChosen]),
            List.filter_cons_of_neg (by simp [isChosen]), List.findSome?_cons, List.findSome?_cons,
            others]
          cases hit layer <;> rfl
      | true =>
          rw [List.filter_cons_of_neg (by simp [isChosen]), List.filter_cons_of_pos isChosen]
          cases found : hit layer with
          | none => rw [List.findSome?_cons, List.findSome?_cons, found, others]
          | some value =>
              have silent : (rest.filter fun later => !chosen later).findSome? hit = none := by
                refine findSome?_eq_none fun later member => ?_
                obtain ⟨inRest, stays⟩ := List.mem_filter.mp member
                exact List.rel_of_pairwise_cons order inRest isChosen (by simpa using stays)
                  (by simp [found])
              rw [silent, Option.none_or, List.findSome?_cons, List.findSome?_cons, found]

/-- **Replacing chosen layers by one.** The layers `above ++ level` contain the
chosen ones; `level'` is `level` without them and with `output` somewhere in
it.  If `output` answers as the chosen layers do, or answers nothing where
their answer is as good as none and nothing below answers, then no reader `view`
that cannot tell such an answer from none sees the difference. -/
theorem findSome?_replace {view : Option V → R} {above level level' below : List T} {output : T}
    (order : (above ++ level).Pairwise fun first second =>
      chosen first = true → chosen second = false → hit first ≠ none → hit second = none)
    (single : AtMostOneHit hit (level.filter fun layer => !chosen layer))
    (sameLevel : level'.Perm (output :: level.filter fun layer => !chosen layer))
    (answers : hit output = ((above ++ level).filter chosen).findSome? hit ∨
      hit output = none ∧ below.findSome? hit = none ∧
        ∀ value, ((above ++ level).filter chosen).findSome? hit = some value →
          view (some value) = view none)
    (clear : ((above ++ level).filter chosen).findSome? hit ≠ none →
      ∀ layer ∈ level.filter fun layer => !chosen layer, hit layer = none) :
    view (((above.filter fun layer => !chosen layer) ++ level' ++ below).findSome? hit) =
      view ((above ++ level ++ below).findSome? hit) := by
  have single' : AtMostOneHit hit (output :: level.filter fun layer => !chosen layer) := by
    refine List.pairwise_cons.mpr ⟨fun layer member => ?_, single⟩
    by_cases found : ((above ++ level).filter chosen).findSome? hit = none
    · left
      rcases answers with same | ⟨nothing, _⟩
      · rw [same, found]
      · exact nothing
    · exact .inr (clear found layer member)
  have newLevel : level'.findSome? hit =
      (hit output).or ((level.filter fun layer => !chosen layer).findSome? hit) := by
    rw [← single'.findSome?_perm sameLevel.symm, List.findSome?_cons]
    cases hit output <;> rfl
  have old := findSome?_split order
  rw [List.findSome?_append, List.findSome?_append, newLevel, List.findSome?_append, old,
    List.filter_append, List.findSome?_append]
  generalize stays : (above.filter fun layer => !chosen layer).findSome? hit = upper
  cases upper with
  | some value => rfl
  | none =>
      simp only [Option.none_or]
      cases found : ((above ++ level).filter chosen).findSome? hit with
      | none =>
          have nothing : hit output = none := by
            rcases answers with same | ⟨nothing, _⟩
            · rw [same, found]
            · exact nothing
          rw [nothing, Option.none_or, Option.or_none]
      | some value =>
          have silent := findSome?_eq_none (clear (by rw [found]; exact Option.some_ne_none _))
          rw [silent, Option.none_or, Option.or_none]
          rcases answers with same | ⟨nothing, nothingBelow, blind⟩
          · rw [same, found]
          · rw [nothing, Option.none_or, nothingBelow, Option.or_none, blind value found]

end Replace

/-- The answer of a list of layers is that of the first layer that holds anything. -/
theorem findSome?_eq_find?_bind (hit : T → Option V) (layers : List T) :
    layers.findSome? hit = (layers.find? fun layer => (hit layer).isSome).bind hit := by
  induction layers with
  | nil => rfl
  | cons layer rest ih =>
      rw [List.findSome?_cons, List.find?_cons]
      cases found : hit layer with
      | none => simpa using ih
      | some value => simp [found]

theorem findSome?_eq_none_iff_find? {hit : T → Option V} {layers : List T} :
    layers.findSome? hit = none ↔ (layers.find? fun layer => (hit layer).isSome) = none := by
  simp

/-- A layer answers for the list when no other one holds anything. -/
theorem findSome?_eq_of_only {hit : T → Option V} {layers : List T} {layer : T}
    (member : layer ∈ layers) (only : ∀ other ∈ layers, hit other ≠ none → other = layer) :
    layers.findSome? hit = hit layer := by
  cases answer : layers.findSome? hit with
  | none => exact (List.findSome?_eq_none_iff.mp answer layer member).symm
  | some value =>
      obtain ⟨other, isOther, found⟩ := exists_of_findSome? answer
      rw [← only other isOther (by simp [found]), found]

/-- Two layers answer in their order when no other one holds anything. -/
theorem findSome?_eq_of_pair {hit : T → Option V} {layers : List T} {first second : T}
    (pair : [first, second].Sublist layers) (distinct : layers.Nodup)
    (only : ∀ other ∈ layers, hit other ≠ none → other = first ∨ other = second) :
    layers.findSome? hit = (hit first).or (hit second) := by
  obtain ⟨front, back, rfl, inFront, inBack⟩ := List.cons_sublist_iff.mp pair
  rw [List.singleton_sublist] at inBack
  have apart := List.disjoint_of_nodup_append distinct
  rw [List.findSome?_append, findSome?_eq_of_only inFront, findSome?_eq_of_only inBack]
  · intro other member found
    refine (only other (List.mem_append_right _ member) found).resolve_left ?_
    rintro rfl
    exact apart inFront member
  · intro other member found
    refine (only other (List.mem_append_left _ member) found).resolve_right ?_
    rintro rfl
    exact apart member inBack

theorem pair_sublist_of_mem {items : List T} {first second : T} (isFirst : first ∈ items)
    (isSecond : second ∈ items) (distinct : first ≠ second) :
    [first, second].Sublist items ∨ [second, first].Sublist items := by
  obtain ⟨front, back, rfl⟩ := List.append_of_mem isFirst
  rcases List.mem_append.mp isSecond with earlier | later
  · right
    exact List.cons_sublist_iff.mpr ⟨front, first :: back, rfl, earlier, by simp⟩
  · left
    have inBack : second ∈ back := (List.mem_cons.mp later).resolve_left (Ne.symm distinct)
    exact (List.cons_sublist_cons.mpr (List.singleton_sublist.mpr inBack)).trans
      (List.sublist_append_right _ _)

theorem mem_before_of_pair {before after : List T} {item first : T}
    (distinct : (before ++ item :: after).Nodup) (differ : first ≠ item)
    (pair : [first, item].Sublist (before ++ item :: after)) : first ∈ before := by
  obtain ⟨front, back, split, inFront, inBack⟩ := List.sublist_append_iff.mp pair
  cases front with
  | nil =>
      rw [List.nil_append] at split
      rw [← split] at inBack
      cases inBack with
      | cons _ later =>
          have again : item ∈ after := later.subset (by simp)
          have once := (List.nodup_append.mp distinct).2.1
          exact absurd again (List.nodup_cons.mp once).1
      | cons_cons => exact absurd rfl differ
  | cons head rest =>
      have isFirst : first = head := (List.cons.inj split).1
      rw [isFirst]
      exact inFront.subset List.mem_cons_self

/-- **Reordering** layers changes no lookup if a layer that holds the item stays in front of
every later one that does. -/
theorem findSome?_reorder {hit : T → Option V} {layers layers' : List T}
    (perm : layers'.Perm layers) (distinct : layers.Nodup)
    (order : layers.Pairwise fun front behind =>
      hit front = none ∨ hit behind = none ∨ [front, behind].Sublist layers') :
    layers'.findSome? hit = layers.findSome? hit := by
  cases found : layers.findSome? hit with
  | none =>
      rw [List.findSome?_eq_none_iff] at found ⊢
      exact fun layer member => found layer (perm.subset member)
  | some value =>
      obtain ⟨front, first, back, rfl, hits, skipped⟩ := List.findSome?_eq_some_iff.mp found
      cases found' : layers'.findSome? hit with
      | none =>
          have missing := List.findSome?_eq_none_iff.mp found' first
            (perm.symm.subset (List.mem_append_right _ List.mem_cons_self))
          rw [missing] at hits
          cases hits
      | some value' =>
          obtain ⟨front', first', back', rfl, hits', skipped'⟩ :=
            List.findSome?_eq_some_iff.mp found'
          by_cases same : first = first'
          · rw [← same, hits] at hits'
            exact hits'.symm
          · -- The first hit of the one order would come before the first hit of the other.
            have later : first' ∈ back := by
              have member := perm.subset (List.mem_append_right _ List.mem_cons_self)
              rcases List.mem_append.mp member with early | late
              · rw [skipped first' early] at hits'
                cases hits'
              · exact (List.mem_cons.mp late).resolve_left (Ne.symm same)
            have behind := (List.pairwise_cons.mp (List.pairwise_append.mp order).2.1).1 first' later
            rw [hits, hits'] at behind
            have pair := (behind.resolve_left nofun).resolve_left nofun
            have early := mem_before_of_pair (perm.nodup_iff.mpr distinct) same pair
            rw [skipped' first early] at hits
            cases hits

theorem pair_sublist_flatMap {S : Type} {indices : List S} {group : S → List T} {first second : S}
    (order : [first, second].Sublist indices) {front behind : T} (inFirst : front ∈ group first)
    (inSecond : behind ∈ group second) :
    [front, behind].Sublist (indices.flatMap group) := by
  have whole : ([first, second].flatMap group).Sublist (indices.flatMap group) :=
    List.Sublist.flatMap order group
  refine List.Sublist.trans ?_ whole
  have both := (List.singleton_sublist.mpr inFirst).append (List.singleton_sublist.mpr inSecond)
  simpa using both

theorem perm_flatMap_insert {S : Type} [DecidableEq S] {indices : List S} {group : S → List T}
    {place : S} (item : T) (present : place ∈ indices) (distinct : indices.Nodup) :
    (indices.flatMap fun index => if index = place then item :: group index else group index).Perm
      (item :: indices.flatMap group) := by
  obtain ⟨front, back, rfl⟩ := List.append_of_mem present
  have apart := List.nodup_middle.mp distinct
  have others : ∀ part : List S, place ∉ part →
      (part.flatMap fun index => if index = place then item :: group index else group index) =
        part.flatMap group := by
    intro part absent
    refine List.flatMap_congr fun index member => if_neg ?_
    rintro rfl
    exact absent member
  have absent := (List.nodup_cons.mp apart).1
  rw [List.flatMap_append, List.flatMap_append, List.flatMap_cons, List.flatMap_cons,
    if_pos rfl, others front (fun member => absent (List.mem_append_left _ member)),
    others back (fun member => absent (List.mem_append_right _ member))]
  exact List.perm_middle

theorem AtMostOneHit.only {hit : T → Option V} {layers : List T}
    (single : AtMostOneHit hit layers) {layer other : T} (member : layer ∈ layers)
    (found : hit layer ≠ none) (isOther : other ∈ layers) (alsoFound : hit other ≠ none) :
    other = layer := by
  by_contra different
  have symmetric : Std.Symm fun first second : T => hit first = none ∨ hit second = none :=
    ⟨fun _ _ => Or.symm⟩
  rcases List.Pairwise.forall single isOther member different with missing | missing
  · exact alsoFound missing
  · exact found missing

section Sorting

variable [LinearOrder K] (rank : T → K)
  [DecidableRel fun first second : T => rank first ≤ rank second] {hit : T → Option V}
  {layers : List T} {last : T}

/-- A layer that is added at the end and sorted in by rank, as a stable sort does it,
is read before the layer that holds the same item exactly if its rank is lower. -/
theorem AtMostOneHit.findSome?_sorted (single : AtMostOneHit hit layers)
    (distinct : (layers ++ [last]).Nodup) {layer : T} (member : layer ∈ layers)
    (found : hit layer ≠ none) [Decidable (rank last < rank layer)] :
    ((layers ++ [last]).insertionSort fun first second => rank first ≤ rank second).findSome? hit =
      if rank last < rank layer then (hit last).or (layers.findSome? hit)
      else (layers.findSome? hit).or (hit last) := by
  have perm := List.perm_insertionSort (fun first second => rank first ≤ rank second)
    (layers ++ [last])
  have distinct' := perm.nodup_iff.mpr distinct
  have only : ∀ other ∈ (layers ++ [last]).insertionSort (fun first second =>
      rank first ≤ rank second), hit other ≠ none → other = layer ∨ other = last := by
    intro other isOther alsoFound
    rcases List.mem_append.mp (perm.mem_iff.mp isOther) with old | new
    · exact .inl (single.only member found old alsoFound)
    · exact .inr (List.mem_singleton.mp new)
  rw [findSome?_eq_of_only member fun other old => single.only member found old]
  split
  · rename_i lower
    refine findSome?_eq_of_pair ?_ distinct' fun other isOther alsoFound =>
      (only other isOther alsoFound).symm
    have ordered : ((layers ++ [last]).insertionSort (fun first second =>
        rank first ≤ rank second)).Pairwise fun first second => rank first ≤ rank second := by
      have total : Std.Total (fun first second : T => rank first ≤ rank second) :=
        ⟨fun _ _ => le_total _ _⟩
      have transitive : IsTrans T (fun first second => rank first ≤ rank second) :=
        ⟨fun _ _ _ => le_trans⟩
      exact List.pairwise_insertionSort _ _
    refine (pair_sublist_of_mem (perm.mem_iff.mpr (by simp)) (perm.mem_iff.mpr (by simp [member]))
      ?_).resolve_right ?_
    · rintro rfl
      exact lt_irrefl _ lower
    · intro wrong
      have upside : [layer, last].Pairwise fun first second => rank first ≤ rank second :=
        ordered.sublist wrong
      exact absurd lower (not_lt.mpr (List.rel_of_pairwise_cons upside List.mem_cons_self))
  · rename_i higher
    refine findSome?_eq_of_pair (List.pair_sublist_insertionSort (not_lt.mp higher) ?_) distinct' only
    exact List.cons_sublist_iff.mpr ⟨layers, [last], rfl, member, List.Sublist.refl _⟩

end Sorting

section ReplacePart

variable {view : Option V → R} {stays seated gone upper inner output place below : Option V}

/-- **Replacing chosen layers while some of them are still there.**  The answers are
those of the layers that stay, above the level of the output (`stays`) and in it
(`seated`), of the chosen layers that are gone, and of those that are left, above the
level (`upper`) and in it (`inner`); `place` is the answer of the level with the output
in it.  A reader sees a difference exactly if a layer that is left answers in place of
one that is gone, differently, and is not itself behind the output. -/
theorem view_replace_part_iff
    (clear : gone.or (upper.or inner) ≠ none → seated = none)
    (answers : output = gone.or (upper.or inner) ∨
      output = none ∧ below = none ∧ ∀ value, gone.or (upper.or inner) = some value →
        view (some value) = view none)
    (placed : place = output.or (seated.or inner) ∨ place = (seated.or inner).or output) :
    view (((stays.or upper).or place).or below) =
        view (((stays.or seated).or (gone.or (upper.or inner))).or below) ↔
      ¬ (stays = none ∧ ∃ newest older, gone = some newest ∧ upper.or inner = some older ∧
        view (some older) ≠ view (some newest) ∧
        ¬ (output ≠ none ∧ upper = none ∧ place = output.or inner)) := by
  cases stays with
  | some value => simp
  | none =>
      cases gone with
      | none =>
          have same : upper.or place = seated.or (upper.or inner) := by
            cases left : upper.or inner with
            | none =>
                obtain ⟨rfl, rfl⟩ := Option.or_eq_none_iff.mp left
                have nothing : output = none := by
                  rcases answers with same | ⟨nothing, _⟩
                  · exact same
                  · exact nothing
                rcases placed with rfl | rfl <;> simp [nothing]
            | some value =>
                have silent : seated = none := clear (by simp [left])
                rw [silent] at placed ⊢
                cases upper with
                | some _ => exact left
                | none =>
                    have isInner : inner = some value := left
                    rcases answers with same | ⟨nothing, _⟩
                    · rcases placed with rfl | rfl <;> simp [same, isInner]
                    · rcases placed with rfl | rfl <;> simp [nothing, isInner]
          simp [same]
      | some newest =>
          have silent : seated = none := clear (by simp)
          rw [silent] at placed ⊢
          cases upper with
          | some older => simp
          | none =>
              cases inner with
              | none =>
                  have isPlace : place = output := by
                    rcases placed with rfl | rfl <;> simp
                  rcases answers with same | ⟨nothing, nothingBelow, blind⟩
                  · simp [isPlace, same]
                  · simp [isPlace, nothing, nothingBelow, (blind newest rfl).symm]
              | some older =>
                  rcases answers with same | ⟨nothing, _⟩
                  · rcases placed with rfl | rfl
                    · simp [same]
                    · by_cases alike : view (some older) = view (some newest)
                      · simp [same, alike]
                      · have different : older ≠ newest := by
                          rintro rfl
                          exact alike rfl
                        simp [same, alike, different]
                  · rcases placed with rfl | rfl <;> simp [nothing]

end ReplacePart

/-- In a list without repeated labels, the members of a sublist are found again
by their labels. -/
theorem filter_label_mem_eq {L : Type} [DecidableEq L] {label : T → L} {sub whole : List T}
    (sublist : sub.Sublist whole) (distinct : (whole.map label).Nodup) :
    (whole.filter fun item => decide (label item ∈ sub.map label)) = sub := by
  induction sublist with
  | slnil => rfl
  | cons item inside ih =>
      rw [List.map_cons, List.nodup_cons] at distinct
      have outside := fun member => distinct.1 ((inside.map label).subset member)
      rw [List.filter_cons_of_neg (by simpa using outside), ih distinct.2]
  | cons_cons item _ ih =>
      rw [List.map_cons, List.nodup_cons] at distinct
      rw [List.filter_cons_of_pos (by simp)]
      congr 1
      refine (List.filter_congr fun other member => ?_).trans (ih distinct.2)
      have apart : label other ≠ label item := fun same =>
        distinct.1 (same ▸ List.mem_map_of_mem member)
      simp [apart]

end LsmStore.Foundation
