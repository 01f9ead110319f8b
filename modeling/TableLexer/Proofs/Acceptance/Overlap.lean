import Mathlib.Tactic.ByContra
import TableLexer.Proofs.Acceptance.CategoryTable

/-!
# Overlaps

Accepting states overlap if two categories share a state. They give a table of categories unless
they do, however often a category repeats a state of its own. If they overlap, the table is filled
up to the first entry of the listing whose state has another category by then. That is an entry of
the first category that shares a state with an earlier one, and of its entries the first with such a
state. The categories before it are disjoint, so only one of them can have had the state.
-/

namespace TableLexer

/-- The categories that are listed before a category. -/
def Category.earlier (category : Category) : List Category :=
  Category.classified.takeWhile fun other => other != category

/-- A category does not come before itself. -/
theorem Category.not_mem_earlier (category : Category) : category ∉ category.earlier := by
  cases category <;> decide

/-- Of two categories that are listed, one is listed before the other. -/
theorem Category.mem_earlier_or {category other : Category} (hne : category ≠ other)
    (hlisted : category ∈ classified) (hother : other ∈ classified) :
    category ∈ other.earlier ∨ other ∈ category.earlier := by
  revert hne hlisted hother
  cases category <;> cases other <;> decide

/-- Behind the earlier categories, a category itself is listed. -/
theorem Category.exists_classified_eq {category : Category} (h : category ∈ classified) :
    ∃ later, classified = category.earlier ++ category :: later := by
  have hsplit : category.earlier ++ classified.dropWhile (fun other => other != category) =
      classified := List.takeWhile_append_dropWhile
  have hhead := List.head?_dropWhile_not (fun other => other != category) classified
  cases hrest : classified.dropWhile fun other => other != category with
  | nil =>
    rw [hrest, List.append_nil] at hsplit
    rw [← hsplit] at h
    exact absurd h category.not_mem_earlier
  | cons head later =>
    rw [hrest] at hhead hsplit
    obtain rfl : head = category := by simpa using hhead
    exact ⟨later, hsplit.symm⟩

/-- What is earlier than a category stands in front of it. -/
theorem Category.mem_of_mem_earlier {category other : Category} {front back : List Category}
    (hsplit : classified = front ++ category :: back) (h : other ∈ category.earlier) :
    other ∈ front := by
  rw [earlier, hsplit, List.takeWhile_append] at h
  split at h
  · simpa using h
  · exact List.takeWhile_subset _ h

namespace Acceptance

/-- The states of a category that an earlier category has, too, in the order of the list. -/
def contested (acceptance : Acceptance) (category : Category) : List State :=
  (acceptance.states category).filter fun state =>
    category.earlier.any fun other => (acceptance.states other).contains state

/-- Two different categories share a state. -/
def Overlaps (acceptance : Acceptance) : Prop :=
  ∃ category other, category ≠ other ∧
    ∃ state ∈ acceptance.states category, state ∈ acceptance.states other

/-- The first overlap: the first category that shares a state with an earlier one, the first of its
states that it shares, and the one earlier category that has this state. -/
structure FirstOverlap (acceptance : Acceptance) (state : State) (first second : Category) :
    Prop where
  /-- No category before the second shares a state with an earlier one. -/
  disjoint : ∀ category ∈ second.earlier, acceptance.contested category = []
  /-- The state is the first one that the second category shares. -/
  head : (acceptance.contested second).head? = some state
  /-- The first category is listed before the second. -/
  earlier : first ∈ second.earlier
  /-- It has the state. -/
  listed : state ∈ acceptance.states first
  /-- No other earlier category does. -/
  only : ∀ other ∈ second.earlier, state ∈ acceptance.states other → other = first

/-- A contested state is one of the category and of an earlier one. -/
theorem mem_contested {acceptance : Acceptance} {state : State} {category : Category} :
    state ∈ acceptance.contested category ↔
      state ∈ acceptance.states category ∧
        ∃ other ∈ category.earlier, state ∈ acceptance.states other := by
  simp [contested]

/-- Only listed categories have states. -/
theorem mem_classified_of_mem_states {acceptance : Acceptance} {state : State}
    {category : Category} (h : state ∈ acceptance.states category) :
    category ∈ Category.classified := by
  cases category <;> simp_all [states, Category.classified]

/-- A state of two different categories is contested in the one that is listed second. -/
theorem mem_contested_or {acceptance : Acceptance} {state : State} {category other : Category}
    (hne : category ≠ other) (hstate : state ∈ acceptance.states category)
    (hother : state ∈ acceptance.states other) :
    state ∈ acceptance.contested category ∨ state ∈ acceptance.contested other := by
  rcases Category.mem_earlier_or hne (mem_classified_of_mem_states hstate)
    (mem_classified_of_mem_states hother) with hearlier | hearlier
  · exact Or.inr (mem_contested.mpr ⟨hother, category, hearlier, hstate⟩)
  · exact Or.inl (mem_contested.mpr ⟨hstate, other, hearlier, hother⟩)

/-- Categories overlap if one of them shares a state with an earlier one. -/
theorem overlaps_iff {acceptance : Acceptance} :
    acceptance.Overlaps ↔ ∃ category ∈ Category.classified, acceptance.contested category ≠ [] := by
  constructor
  · rintro ⟨category, other, hne, state, hstate, hother⟩
    rcases mem_contested_or hne hstate hother with hcontested | hcontested
    · exact ⟨category, mem_classified_of_mem_states hstate, List.ne_nil_of_mem hcontested⟩
    · exact ⟨other, mem_classified_of_mem_states hother, List.ne_nil_of_mem hcontested⟩
  · rintro ⟨category, -, hcontested⟩
    obtain ⟨state, hmem⟩ := List.exists_mem_of_ne_nil _ hcontested
    obtain ⟨hstate, other, hearlier, hother⟩ := mem_contested.mp hmem
    refine ⟨category, other, ?_, state, hstate, hother⟩
    rintro rfl
    exact category.not_mem_earlier hearlier

/-- Disjoint categories have no state in common. -/
theorem eq_of_contested_eq_nil {acceptance : Acceptance} {categories : List Category}
    (h : ∀ category ∈ categories, acceptance.contested category = []) {state : State}
    {category other : Category} (hmem : category ∈ categories) (hmem' : other ∈ categories)
    (hstate : state ∈ acceptance.states category) (hother : state ∈ acceptance.states other) :
    category = other := by
  by_contra hne
  rcases mem_contested_or hne hstate hother with hcontested | hcontested
  · rw [h category hmem] at hcontested
    cases hcontested
  · rw [h other hmem'] at hcontested
    cases hcontested

/-- If categories overlap, there is a first overlap. -/
theorem Overlaps.exists_firstOverlap {acceptance : Acceptance} (h : acceptance.Overlaps) :
    ∃ state first second, acceptance.FirstOverlap state first second := by
  have hfound : (Category.classified.find? fun category =>
      acceptance.contested category ≠ []).isSome := by
    obtain ⟨category, hlisted, hcontested⟩ := overlaps_iff.mp h
    exact List.find?_isSome.mpr ⟨category, hlisted, by simpa using hcontested⟩
  obtain ⟨second, hsecond⟩ := Option.isSome_iff_exists.mp hfound
  obtain ⟨hshares, front, back, hsplit, hfront⟩ := List.find?_eq_some_iff_append.mp hsecond
  have hdisjoint : ∀ category ∈ second.earlier, acceptance.contested category = [] := by
    intro category hearlier
    simpa using hfront category (Category.mem_of_mem_earlier hsplit hearlier)
  cases hcontested : acceptance.contested second with
  | nil => simp [hcontested] at hshares
  | cons state rest =>
    obtain ⟨-, first, hearlier, hlisted⟩ := mem_contested.mp
      (hcontested ▸ List.mem_cons_self : state ∈ acceptance.contested second)
    exact ⟨state, first, second, {
      disjoint := hdisjoint
      head := by rw [hcontested, List.head?_cons]
      earlier := hearlier
      listed := hlisted
      only := fun other hother hstate =>
        eq_of_contested_eq_nil hdisjoint hother hearlier hstate hlisted }⟩

/-- A first overlap is an overlap. -/
theorem FirstOverlap.overlaps {acceptance : Acceptance} {state : State} {first second : Category}
    (h : acceptance.FirstOverlap state first second) : acceptance.Overlaps := by
  have hcontested := List.mem_of_mem_head? h.head
  refine ⟨first, second, ?_, state, h.listed, (mem_contested.mp hcontested).1⟩
  rintro rfl
  exact first.not_mem_earlier h.earlier

/-! ### Entering the listing -/

/-- Entries that give each state one category at most. -/
def Consistent (entries : List (State × Category)) : Prop :=
  ∀ state category other, (state, category) ∈ entries → (state, other) ∈ entries →
    category = other

/-- The listing is consistent unless there is an overlap. -/
theorem consistent_listing_iff {acceptance : Acceptance} :
    Consistent acceptance.listing ↔ ¬acceptance.Overlaps := by
  simp only [Consistent, mem_listing]
  constructor
  · rintro hconsistent ⟨category, other, hne, state, hstate, hother⟩
    exact hne (hconsistent state category other hstate hother)
  · intro hno state category other hstate hother
    by_contra hne
    exact hno ⟨category, other, hne, state, hstate, hother⟩

/-- Entries with places in an empty table are entered unless they are inconsistent. -/
theorem exists_foldlM_enter_iff {entries : List (State × Category)} {rows : Nat}
    (hlt : ∀ entry ∈ entries, entry.1.toNat < rows) :
    (∃ final, entries.foldlM enter (Array.replicate rows none) = .ok final) ↔
      Consistent entries := by
  constructor
  · rintro ⟨final, hfinal⟩ state category other hstate hother
    rw [← categoryIn_of_foldlM_enter_replicate hfinal hlt] at hstate hother
    exact Option.some.inj (hstate.symm.trans hother)
  · intro hconsistent
    cases hfinal : entries.foldlM enter (Array.replicate rows none) with
    | ok final => exact ⟨final, rfl⟩
    | error e =>
      obtain ⟨before, entry, after, reached, rfl, hbefore, hrefused⟩ :=
        exists_refused_of_foldlM_enter hfinal
      obtain ⟨first, hfirst, hne, -⟩ := enter_eq_error hrefused
      rw [categoryIn_of_foldlM_enter_replicate hbefore
        fun earlier hmem => hlt earlier (List.mem_append_left _ hmem)] at hfirst
      exact absurd (hconsistent entry.1 first entry.2 (List.mem_append_left _ hfirst)
        (List.mem_append_right _ List.mem_cons_self)) hne

/-- Behind consistent entries, an entry is refused whose state they give another category. -/
theorem foldlM_enter_eq_overlap {before after : List (State × Category)} {rows : Nat}
    (hlt : ∀ entry ∈ before, entry.1.toNat < rows) (hconsistent : Consistent before)
    {state : State} {first second : Category} (hfirst : (state, first) ∈ before)
    (hne : first ≠ second) :
    (before ++ (state, second) :: after).foldlM enter (Array.replicate rows none) =
      .error (.overlap state first second) := by
  obtain ⟨reached, hreached⟩ := (exists_foldlM_enter_iff hlt).mpr hconsistent
  have hfound := (categoryIn_of_foldlM_enter_replicate hreached hlt state first).mpr hfirst
  have hrefused : enter reached (state, second) = .error (.overlap state first second) := by
    unfold categoryIn at hfound
    simp only [enter, hfound, if_neg hne]
  rw [List.foldlM_append, hreached]
  change ((state, second) :: after).foldlM enter reached = _
  rw [List.foldlM_cons, hrefused]
  rfl

/-- The entries up to a place in the list of a category: those of the earlier categories, and those
of the category itself that come before. -/
def entriesBefore (acceptance : Acceptance) (category : Category) (front : List State) :
    List (State × Category) :=
  (category.earlier.flatMap fun other => (acceptance.states other).map (·, other)) ++
    front.map (·, category)

/-- The entries before a place are those of the earlier categories and of the front of the list. -/
theorem mem_entriesBefore {acceptance : Acceptance} {category other : Category}
    {front : List State} {state : State} :
    (state, other) ∈ acceptance.entriesBefore category front ↔
      other ∈ category.earlier ∧ state ∈ acceptance.states other ∨
        other = category ∧ state ∈ front := by
  simp only [entriesBefore, List.mem_append, List.mem_flatMap, List.mem_map, Prod.mk.injEq]
  constructor
  · rintro (⟨_, hearlier, _, hstate, rfl, rfl⟩ | ⟨_, hmem, rfl, rfl⟩)
    · exact Or.inl ⟨hearlier, hstate⟩
    · exact Or.inr ⟨rfl, hmem⟩
  · rintro (⟨hearlier, hstate⟩ | ⟨rfl, hmem⟩)
    · exact Or.inl ⟨other, hearlier, state, hstate, rfl, rfl⟩
    · exact Or.inr ⟨state, hmem, rfl, rfl⟩

/-- The first shared state of a category comes behind states that are not shared. -/
theorem FirstOverlap.exists_states_eq {acceptance : Acceptance} {state : State}
    {first second : Category} (h : acceptance.FirstOverlap state first second) :
    ∃ front back, acceptance.states second = front ++ state :: back ∧
      ∀ earlier ∈ front, earlier ∉ acceptance.contested second := by
  have hfind := h.head
  rw [contested, List.head?_filter] at hfind
  obtain ⟨-, front, back, hstates, hfront⟩ := List.find?_eq_some_iff_append.mp hfind
  refine ⟨front, back, hstates, fun earlier hmem hcontested => ?_⟩
  have hshared := (List.mem_filter.mp hcontested).2
  have hnot := hfront earlier hmem
  rw [hshared] at hnot
  cases hnot

/-- The listing goes through the entries before a place, and then on from there. -/
theorem exists_listing_eq {acceptance : Acceptance} {category : Category} {state : State}
    {front back : List State} (hstates : acceptance.states category = front ++ state :: back) :
    ∃ after, acceptance.listing =
      acceptance.entriesBefore category front ++ (state, category) :: after := by
  have hmem : state ∈ acceptance.states category := by simp [hstates]
  obtain ⟨later, hclassified⟩ :=
    Category.exists_classified_eq (mem_classified_of_mem_states hmem)
  refine ⟨back.map (·, category) ++
    later.flatMap fun other => (acceptance.states other).map (·, other), ?_⟩
  rw [listing, sets, List.flatMap_map, hclassified]
  simp [entriesBefore, hstates]

/-- Up to the first overlap, the entries are consistent. -/
theorem FirstOverlap.consistent {acceptance : Acceptance} {state : State}
    {first second : Category} (h : acceptance.FirstOverlap state first second)
    {front back : List State} (hstates : acceptance.states second = front ++ back)
    (hfront : ∀ earlier ∈ front, earlier ∉ acceptance.contested second) :
    Consistent (acceptance.entriesBefore second front) := by
  have hfree : ∀ earlier ∈ front, ∀ other ∈ second.earlier,
      earlier ∉ acceptance.states other := by
    intro earlier hmem other hearlier hstate
    have hlisted : earlier ∈ acceptance.states second := by simp [hstates, hmem]
    exact hfront earlier hmem (mem_contested.mpr ⟨hlisted, other, hearlier, hstate⟩)
  intro earlier category other hcategory hother
  rcases mem_entriesBefore.mp hcategory with ⟨hearlier, hstate⟩ | ⟨rfl, hmem⟩
  · rcases mem_entriesBefore.mp hother with ⟨hearlier', hstate'⟩ | ⟨rfl, hmem'⟩
    · exact eq_of_contested_eq_nil h.disjoint hearlier hearlier' hstate hstate'
    · exact absurd hstate (hfree earlier hmem' category hearlier)
  · rcases mem_entriesBefore.mp hother with ⟨hearlier', hstate'⟩ | ⟨rfl, -⟩
    · exact absurd hstate' (hfree earlier hmem other hearlier')
    · rfl

section CategoryTable

variable {acceptance : Acceptance} {rows : Nat} (hrows : acceptance.bound ≤ rows)

include hrows

/-- Accepting states give a table of categories unless they overlap. -/
theorem exists_categoryTable_iff :
    (∃ categories, acceptance.categoryTable rows = .ok categories) ↔ ¬acceptance.Overlaps := by
  rw [← consistent_listing_iff]
  exact exists_foldlM_enter_iff fun entry hmem => lt_of_mem_listing hrows hmem

/-- A first overlap is told. -/
theorem FirstOverlap.categoryTable_eq {state : State} {first second : Category}
    (h : acceptance.FirstOverlap state first second) :
    acceptance.categoryTable rows = .error (.overlap state first second) := by
  obtain ⟨front, back, hstates, hfront⟩ := h.exists_states_eq
  obtain ⟨after, hlisting⟩ := exists_listing_eq hstates
  have hconsistent := h.consistent hstates hfront
  have hfirst : (state, first) ∈ acceptance.entriesBefore second front :=
    mem_entriesBefore.mpr (Or.inl ⟨h.earlier, h.listed⟩)
  have hne : first ≠ second := by
    rintro rfl
    exact first.not_mem_earlier h.earlier
  have hlt : ∀ entry ∈ acceptance.entriesBefore second front, entry.1.toNat < rows := by
    intro entry hmem
    exact lt_of_mem_listing hrows (hlisting ▸ List.mem_append_left _ hmem)
  rw [categoryTable, hlisting]
  exact foldlM_enter_eq_overlap hlt hconsistent hfirst hne

/-- The overlap that is told is the first one. -/
theorem categoryTable_eq_overlap_iff {state : State} {first second : Category} :
    acceptance.categoryTable rows = .error (.overlap state first second) ↔
      acceptance.FirstOverlap state first second := by
  constructor
  · intro htold
    have hoverlaps : acceptance.Overlaps := by
      by_contra hno
      obtain ⟨categories, hok⟩ := (exists_categoryTable_iff hrows).mpr hno
      rw [hok] at htold
      cases htold
    obtain ⟨state', first', second', hfirst⟩ := hoverlaps.exists_firstOverlap
    have hsame := (hfirst.categoryTable_eq hrows).symm.trans htold
    rw [Except.error.injEq, TableError.overlap.injEq] at hsame
    obtain ⟨rfl, rfl, rfl⟩ := hsame
    exact hfirst
  · exact fun h => h.categoryTable_eq hrows

end CategoryTable

end Acceptance

end TableLexer
