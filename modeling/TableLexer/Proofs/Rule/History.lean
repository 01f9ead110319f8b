import TableLexer.Proofs.Automaton.Walk

/-!
# Histories of rules

What a rule does to an edge depends on the rules before it: it gives an edge only where there is
none, and an exclusion takes the edge on its byte back if that edge leads to its own target by then.
So an edge is told by the history of the rules. A rule offers edges unless it takes one back, and of
the offers since the edge was last taken back the first is the one that counts. Without exclusions
nothing is ever taken back, and the first definition wins.
-/

namespace TableLexer.History

/-- The row of a state after so many of the first rules of a list. -/
def row (rules : List Rule) (count : Nat) (state : State) : Row :=
  ((rules.take count).foldl Draft.apply Draft.empty).table.row state

/-- The edge of a state on a byte after so many of the first rules of a list. -/
def edge? (rules : List Rule) (count : Nat) (state : State) (b : UInt8) : Option State :=
  (row rules count state).next? b

/-- The rule at a place takes back the edge of a state on a byte: it excludes the byte, and the
rules before it have given the byte an edge to its own target. -/
def Retracts (rules : List Rule) (place : Nat) (state : State) (b : UInt8) : Prop :=
  ∃ target, rules[place]? = some ⟨state, target, .exclude b⟩ ∧
    edge? rules place state b = some target

/-- The rule at a place has a state as its source, a byte in its symbol and a target. -/
def Defines (rules : List Rule) (place : Nat) (state : State) (b : UInt8) (target : State) : Prop :=
  ∃ symbol, rules[place]? = some (Rule.mk state target symbol) ∧ b ∈ symbol.bytes

/-- The rule at a place offers an edge from a state to a target on a byte: it defines the edge, and
takes no edge back. -/
def Offers (rules : List Rule) (place : Nat) (state : State) (b : UInt8) (target : State) : Prop :=
  Defines rules place state b target ∧ ∀ c, ¬Retracts rules place state c

/-- Of the first rules of a list, those from a place on come after the last one that takes back the
edge of a state on a byte. If none does, they are all of them. -/
structure OpenSince (rules : List Rule) (count : Nat) (state : State) (b : UInt8) (since : Nat) :
    Prop where
  /-- The place is the first one, or the edge is taken back right before it. -/
  here : since = 0 ∨ ∃ place < count, since = place + 1 ∧ Retracts rules place state b
  /-- The edge is not taken back from there on. -/
  later : ∀ place, since ≤ place → place < count → ¬Retracts rules place state b

/-- Of the first rules of a list, and from a place on, none offers an edge of a state on a byte. -/
def NoOffer (rules : List Rule) (count : Nat) (state : State) (b : UInt8) (since : Nat) : Prop :=
  ∀ place, since ≤ place → place < count → ∀ target, ¬Offers rules place state b target

/-- Of the first rules of a list, and from a place on, the earliest that offers an edge of a state
on a byte has a given target. -/
def FirstOffer (rules : List Rule) (count : Nat) (state : State) (b : UInt8) (since : Nat)
    (target : State) : Prop :=
  ∃ place, since ≤ place ∧ place < count ∧ Offers rules place state b target ∧
    NoOffer rules place state b since

variable {rules : List Rule} {count since : Nat} {state : State} {b : UInt8}

/-- Only a rule of the list defines an edge. -/
theorem Defines.lt {place : Nat} {target : State} (h : Defines rules place state b target) :
    place < rules.length := by
  obtain ⟨symbol, hrule, -⟩ := h
  exact (List.getElem?_eq_some_iff.mp hrule).1

/-- A rule that takes the edge back does not offer one. -/
theorem Retracts.not_offers (h : Retracts rules count state b) (c : UInt8) (target : State) :
    ¬Offers rules count state c target := by
  rintro ⟨-, hno⟩
  exact hno b h

/-- Rules before the count decide where the earliest offer is, so there is one at most. -/
theorem FirstOffer.unique {target other : State}
    (h : FirstOffer rules count state b since target)
    (hother : FirstOffer rules count state b since other) : target = other := by
  obtain ⟨place, hsince, -, hoffer, hno⟩ := h
  obtain ⟨place', hsince', -, hoffer', hno'⟩ := hother
  rcases Nat.lt_trichotomy place place' with hlt | rfl | hlt
  · exact absurd hoffer (hno' place hsince hlt target)
  · obtain ⟨⟨symbol, hrule, -⟩, -⟩ := hoffer
    obtain ⟨⟨symbol', hrule', -⟩, -⟩ := hoffer'
    rw [hrule] at hrule'
    simp only [Option.some.injEq, Rule.mk.injEq] at hrule'
    exact hrule'.2.1
  · exact absurd hoffer' (hno place' hsince' hlt other)

/-- Before the first rule there are no edges. -/
theorem edge?_zero (rules : List Rule) (state : State) (b : UInt8) :
    edge? rules 0 state b = none := by
  simp [edge?, row, Draft.empty, Table.row_eq]

section Step

variable {rule : Rule} (hrule : rules[count]? = some rule)

include hrule

/-- One rule further, the rule has acted on the row of its source. -/
theorem row_succ :
    row rules (count + 1) state =
      if rule.source = state then rule.applyTo (row rules count state)
      else row rules count state := by
  unfold row
  rw [List.take_add_one, hrule, Option.toList_some, List.foldl_append, List.foldl_cons,
    List.foldl_nil, Draft.row_apply]

/-- The rule at a place takes back the edge that its own test finds in the row of its source. -/
theorem retracts_iff :
    Retracts rules count state b ↔
      rule.source = state ∧ rule.retracted? (row rules count state) = some b := by
  rw [Rule.retracted?_eq_some_iff]
  constructor
  · rintro ⟨target, hother, hedge⟩
    obtain rfl := Option.some.inj (hrule.symm.trans hother)
    exact ⟨rfl, rfl, hedge⟩
  · rintro ⟨rfl, hsymbol, hedge⟩
    exact ⟨rule.target, by rw [hrule, ← hsymbol], hedge⟩

/-- The rule at a place offers its target on the bytes of its symbol, unless its test finds an edge.
-/
theorem offers_iff {target : State} :
    Offers rules count state b target ↔
      rule.source = state ∧ rule.target = target ∧ rule.symbol.contains b ∧
        rule.retracted? (row rules count state) = none := by
  constructor
  · rintro ⟨⟨symbol, hother, hmem⟩, hno⟩
    obtain rfl := Option.some.inj (hrule.symm.trans hother)
    refine ⟨rfl, rfl, Symbol.mem_bytes.mp hmem, Option.eq_none_iff_forall_ne_some.mpr ?_⟩
    intro c hretracted
    exact hno c ((retracts_iff hrule).mpr ⟨rfl, hretracted⟩)
  · rintro ⟨rfl, rfl, hcontains, hnone⟩
    refine ⟨⟨rule.symbol, hrule, Symbol.mem_bytes.mpr hcontains⟩, ?_⟩
    intro c hretracts
    obtain ⟨-, hsome⟩ := (retracts_iff hrule).mp hretracts
    simp [hnone] at hsome

/-- The three things that the next rule can do to an edge: take it back, offer one where there may
be one already, or leave it as it is. -/
theorem edge?_succ_cases (htarget : rule.target ≠ State.noEdge) (state : State) (b : UInt8) :
    (Retracts rules count state b ∧ edge? rules (count + 1) state b = none) ∨
    (Offers rules count state b rule.target ∧
      edge? rules (count + 1) state b = (edge? rules count state b <|> some rule.target)) ∨
    (¬Retracts rules count state b ∧ (∀ target, ¬Offers rules count state b target) ∧
      edge? rules (count + 1) state b = edge? rules count state b) := by
  simp only [retracts_iff hrule, offers_iff hrule, edge?, row_succ hrule]
  by_cases hsource : rule.source = state
  · rw [if_pos hsource, Rule.applyTo]
    cases hretracted : rule.retracted? (row rules count state) with
    | some c =>
      simp only [Row.next?_erase, Option.some.injEq]
      by_cases hc : c = b
      · exact Or.inl ⟨⟨hsource, hc⟩, if_pos hc⟩
      · exact Or.inr (Or.inr ⟨by simp [hc], by simp, if_neg hc⟩)
    | none =>
      simp only [Row.next?_addAll, if_neg htarget]
      by_cases hcontains : rule.symbol.contains b
      · exact Or.inr (Or.inl ⟨by simp [hsource, hcontains], if_pos hcontains⟩)
      · exact Or.inr (Or.inr ⟨by simp, by simp [hcontains], if_neg hcontains⟩)
  · exact Or.inr (Or.inr ⟨by simp [hsource], by simp [hsource], by rw [if_neg hsource]⟩)

end Step

/-- How an edge is told by the offers since it was last taken back. -/
def Explains (rules : List Rule) (count : Nat) (state : State) (b : UInt8) (since : Nat) :
    Option State → Prop
  | some target => FirstOffer rules count state b since target
  | none => NoOffer rules count state b since

/-- The rules since the last one that takes the edge back are rules of the list. -/
theorem OpenSince.le (h : OpenSince rules count state b since) : since ≤ count := by
  rcases h.here with rfl | ⟨place, hlt, rfl, -⟩
  · omega
  · omega

/-- The edge is the first one that is offered. -/
theorem Explains.eq_some_iff {edge : Option State}
    (h : Explains rules count state b since edge) {target : State} :
    edge = some target ↔ FirstOffer rules count state b since target := by
  cases edge with
  | some found =>
    constructor
    · rintro ⟨⟩
      exact h
    · exact fun hother => congrArg some (FirstOffer.unique h hother)
  | none =>
    constructor
    · rintro ⟨⟩
    · rintro ⟨place, hsince, hlt, hoffer, -⟩
      exact absurd hoffer (h place hsince hlt target)

/-- There is no edge if none is offered. -/
theorem Explains.eq_none_iff {edge : Option State}
    (h : Explains rules count state b since edge) :
    edge = none ↔ NoOffer rules count state b since := by
  cases edge with
  | some found =>
    constructor
    · rintro ⟨⟩
    · intro hno
      obtain ⟨place, hsince, hlt, hoffer, -⟩ := h
      exact absurd hoffer (hno place hsince hlt found)
  | none => exact ⟨fun _ => h, fun _ => rfl⟩

/-- Before the first rule, every edge is open since the first place. -/
theorem openSince_zero : OpenSince rules 0 state b 0 where
  here := Or.inl rfl
  later := by
    intro place hsince hlt
    omega

/-- A rule that takes the edge back leaves it open since the place behind the rule. -/
theorem Retracts.openSince (h : Retracts rules count state b) :
    OpenSince rules (count + 1) state b (count + 1) where
  here := Or.inr ⟨count, by omega, rfl, h⟩
  later := by
    intro place hsince hlt
    omega

/-- From a place on and up to the same place, there is no offer. -/
theorem noOffer_self : NoOffer rules count state b count := by
  intro place hsince hlt
  omega

/-- A rule that does not take the edge back leaves it open since the same place. -/
theorem OpenSince.succ (h : OpenSince rules count state b since)
    (hno : ¬Retracts rules count state b) : OpenSince rules (count + 1) state b since where
  here := by
    rcases h.here with rfl | ⟨place, hlt, hplace⟩
    · exact Or.inl rfl
    · exact Or.inr ⟨place, by omega, hplace⟩
  later := by
    intro place hsince hlt
    by_cases hlast : place = count
    · rw [hlast]
      exact hno
    · exact h.later place hsince (by omega)

/-- Another rule behind the first offer does not change it. -/
theorem FirstOffer.succ {target : State} (h : FirstOffer rules count state b since target) :
    FirstOffer rules (count + 1) state b since target := by
  obtain ⟨place, hsince, hlt, hoffer⟩ := h
  exact ⟨place, hsince, by omega, hoffer⟩

/-- There is still no offer if another rule makes none. -/
theorem NoOffer.succ (h : NoOffer rules count state b since)
    (hno : ∀ target, ¬Offers rules count state b target) :
    NoOffer rules (count + 1) state b since := by
  intro place hsince hlt
  by_cases hlast : place = count
  · rw [hlast]
    exact hno
  · exact h place hsince (by omega)

/-- Every edge is the earliest offer since it was last taken back. -/
theorem exists_openSince_explains (hcount : count ≤ rules.length)
    (htargets : ∀ rule ∈ rules, rule.target ≠ State.noEdge) (state : State) (b : UInt8) :
    ∃ since, OpenSince rules count state b since ∧
      Explains rules count state b since (edge? rules count state b) := by
  induction count with
  | zero =>
    refine ⟨0, openSince_zero, ?_⟩
    rw [edge?_zero]
    exact noOffer_self
  | succ count ih =>
    obtain ⟨since, hopen, hexplains⟩ := ih (Nat.le_of_succ_le hcount)
    have hrule : rules[count]? = some rules[count] := List.getElem?_eq_getElem hcount
    have htarget := htargets rules[count] (List.getElem_mem hcount)
    rcases edge?_succ_cases hrule htarget state b with
      ⟨hretracts, hedge⟩ | ⟨hoffers, hedge⟩ | ⟨hretracts, hoffers, hedge⟩
    · -- taken back: the history of the edge begins anew
      refine ⟨count + 1, hretracts.openSince, ?_⟩
      rw [hedge]
      exact noOffer_self
    · -- offered: the offer counts if there was none before
      have hno : ¬Retracts rules count state b := fun h => h.not_offers b _ hoffers
      refine ⟨since, hopen.succ hno, ?_⟩
      rw [hedge]
      cases hold : edge? rules count state b with
      | some target =>
        rw [hold] at hexplains
        exact FirstOffer.succ hexplains
      | none =>
        rw [hold] at hexplains
        exact ⟨count, hopen.le, by omega, hoffers, hexplains⟩
    · -- left as it is: the same offer is the earliest, or there is still none
      refine ⟨since, hopen.succ hretracts, ?_⟩
      rw [hedge]
      cases hold : edge? rules count state b with
      | some target =>
        rw [hold] at hexplains
        exact FirstOffer.succ hexplains
      | none =>
        rw [hold] at hexplains
        exact NoOffer.succ hexplains hoffers

/-- The edges of the automaton of rules are those after all of the rules. -/
theorem next?_ofRules {acceptance : Acceptance} {a : Automaton}
    (hbuild : Automaton.ofRules rules acceptance = .ok a) (state : State) (b : UInt8) :
    a.next? state b = edge? rules rules.length state b := by
  unfold Automaton.ofRules Draft.build at hbuild
  rw [Automaton.next?_of_ofTable hbuild, Table.row_pad, edge?, row, List.take_length]

/-- Without exclusions, no edge is ever taken back. -/
theorem not_retracts_of_not_exclude (hrules : ∀ rule ∈ rules, ∀ x, rule.symbol ≠ .exclude x)
    (place : Nat) (state : State) (b : UInt8) : ¬Retracts rules place state b := by
  rintro ⟨target, hrule, -⟩
  exact hrules _ (List.mem_of_getElem? hrule) b rfl

/-- An automaton that is built from rules has the edge of a state on a byte that the earliest rule
offers, of those behind the last rule that takes the edge back; and it has none if no such rule
offers one. Without exclusions, the edge is that of the first rule that defines it. -/
theorem next_ofRules {acceptance : Acceptance} {a : Automaton}
    (hbuild : Automaton.ofRules rules acceptance = .ok a)
    (htargets : ∀ rule ∈ rules, rule.target ≠ State.noEdge) (state : State) (b : UInt8) :
    (∃ since, OpenSince rules rules.length state b since ∧
      (∀ target, a.next state b = .ok target ↔
        FirstOffer rules rules.length state b since target) ∧
      (a.next state b = .error (.noTransition state b) ↔
        NoOffer rules rules.length state b since)) ∧
    ((∀ rule ∈ rules, ∀ x, rule.symbol ≠ .exclude x) → ∀ target,
      a.next state b = .ok target ↔
        ∃ place, Defines rules place state b target ∧
          ∀ earlier < place, ∀ other, ¬Defines rules earlier state b other) := by
  obtain ⟨since, hopen, hexplains⟩ :=
    exists_openSince_explains (Nat.le_refl _) htargets state b
  rw [← next?_ofRules hbuild] at hexplains
  constructor
  · refine ⟨since, hopen, ?_, ?_⟩
    · intro target
      rw [Automaton.next_eq_ok_iff, hexplains.eq_some_iff]
    · rw [Automaton.next_eq_error_iff, hexplains.eq_none_iff]
  · intro hrules target
    have hno := not_retracts_of_not_exclude hrules
    have hoffers : ∀ place other,
        Offers rules place state b other ↔ Defines rules place state b other :=
      fun place other => and_iff_left fun c => hno place state c
    have hsince : since = 0 := by
      rcases hopen.here with hzero | ⟨place, -, -, hretracts⟩
      · exact hzero
      · exact absurd hretracts (hno place state b)
    subst hsince
    rw [Automaton.next_eq_ok_iff, hexplains.eq_some_iff]
    simp only [FirstOffer, NoOffer, hoffers]
    constructor
    · rintro ⟨place, -, -, hdefines, hfirst⟩
      exact ⟨place, hdefines, fun earlier => hfirst earlier (Nat.zero_le _)⟩
    · rintro ⟨place, hdefines, hfirst⟩
      exact ⟨place, Nat.zero_le _, hdefines.lt, hdefines, fun earlier _ => hfirst earlier⟩

/-- Every byte but two has an edge to one state, and then one of the two an edge to another. -/
def reopenedRules : List Rule :=
  [⟨0, 1, .exclude 0x61⟩, ⟨0, 1, .exclude 0x62⟩, ⟨0, 2, .byte 0x62⟩]

/-- The automaton of these rules, without accepting states. -/
def reopened : Automaton := (Automaton.ofRules reopenedRules {}).toOption.get (by decide +kernel)

/-- The edge that is taken back by the second rule is offered anew by the third. In the rules for
numbers nothing is taken back, and each edge has the rule that defines it. -/
theorem next_ofRules_reopened :
    (Automaton.ofRules reopenedRules {} = .ok reopened ∧
      (∀ rule ∈ reopenedRules, rule.target ≠ State.noEdge) ∧ reopened.next 0 0x62 = .ok 2 ∧
      ∃ since, OpenSince reopenedRules 3 0 0x62 since ∧
        FirstOffer reopenedRules 3 0 0x62 since 2) ∧
    (∀ rule ∈ Automaton.numeralRules, rule.target ≠ State.noEdge) ∧
      (∀ rule ∈ Automaton.numeralRules, ∀ x, rule.symbol ≠ .exclude x) ∧
      Automaton.numerals.next 1 0x2E = .ok 2 ∧
      ∃ place, Defines Automaton.numeralRules place 1 0x2E 2 ∧
        ∀ earlier < place, ∀ other, ¬Defines Automaton.numeralRules earlier 1 0x2E other := by
  constructor
  · have hbuild : Automaton.ofRules reopenedRules {} = .ok reopened :=
      Automaton.ofRules_eq_get (by decide +kernel)
    have htargets : ∀ rule ∈ reopenedRules, rule.target ≠ State.noEdge := by decide
    have hnext : reopened.next 0 0x62 = .ok 2 := Automaton.next_eq_ok_iff.mpr (by decide +kernel)
    obtain ⟨⟨since, hopen, hok, -⟩, -⟩ := next_ofRules hbuild htargets 0 0x62
    exact ⟨hbuild, htargets, hnext, since, hopen, (hok 2).mp hnext⟩
  · have htargets : ∀ rule ∈ Automaton.numeralRules, rule.target ≠ State.noEdge := by decide
    have hrules : ∀ rule ∈ Automaton.numeralRules, ∀ x, rule.symbol ≠ .exclude x := by
      simp [Automaton.numeralRules]
    have hnext : Automaton.numerals.next 1 0x2E = .ok 2 :=
      Automaton.next_eq_ok_iff.mpr (by decide +kernel)
    obtain ⟨-, hfirst⟩ := next_ofRules Automaton.ofRules_numerals htargets 1 0x2E
    exact ⟨htargets, hrules, hnext, (hfirst hrules 2).mp hnext⟩

end TableLexer.History
