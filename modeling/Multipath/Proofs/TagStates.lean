import Multipath.Proofs.Punctuation

/-!
States of one tag. A word is accepted from a set of states just where it leads from one of them to
an acceptable end (`Automaton.verdict_isSome_iff`). If the states that can follow belong to one tag,
which is asserted just where a match may end, then nothing but this tag is found from there. So
where the first character leaves only such states, a scan finds the longest text that leads from
them to an end, with just that tag (`Source.scan_dedicated`), whatever else was open in front of the
character.
-/

namespace Multipath

open Automaton (StateId StateSet Transition accept)

namespace Automaton

def outgoing (a : Automaton) (s : StateId) : List Transition :=
  a.transitions.filter (·.source == s)

/-- The word leads from the state to an acceptable end. -/
def Accepts (a : Automaton) : List Char → StateId → Prop
  | [], _ => False
  | c :: cs, s => s ≠ accept ∧ ∃ t ∈ a.outgoing s, t.label.accepts c = true ∧
      (cs = [] ∧ accept ∈ t.targets ∨ ∃ s' ∈ t.targets, a.Accepts cs s')

/-- From the inner states only inner states follow, and the tag is asserted, alone and for good,
just where a match may end. -/
def Confined (a : Automaton) (inner : List StateId) (tag : TagId) : Prop :=
  ∀ t ∈ a.transitions, t.source ∈ inner → (∀ s ∈ t.targets, s = accept ∨ s ∈ inner) ∧
    t.asserts = (if accept ∈ t.targets then [tag] else []) ∧ t.retracts = []

instance (a : Automaton) (inner : List StateId) (tag : TagId) : Decidable (a.Confined inner tag) :=
  inferInstanceAs (Decidable (∀ t ∈ a.transitions, t.source ∈ inner →
    (∀ s ∈ t.targets, s = accept ∨ s ∈ inner) ∧
      t.asserts = (if accept ∈ t.targets then [tag] else []) ∧ t.retracts = []))

variable {a : Automaton} {states : StateSet} {c : Char} {w : List Char} {s : StateId}

theorem not_accepts_accept : ¬a.Accepts w accept := by
  cases w with
  | nil => exact id
  | cons c cs => exact fun h => h.1 rfl

theorem accepts_iff (hs : s ≠ accept) : a.Accepts w s ↔ ∃ c cs, w = c :: cs ∧
    ∃ t ∈ a.outgoing s, t.label.accepts c = true ∧
      (cs = [] ∧ accept ∈ t.targets ∨ ∃ s' ∈ t.targets, a.Accepts cs s') := by
  cases w with
  | nil => simp [Accepts]
  | cons c cs =>
      refine ⟨fun h => ⟨c, cs, rfl, h.2⟩, ?_⟩
      rintro ⟨_, _, ⟨⟩, h⟩
      exact ⟨hs, h⟩

theorem mem_step_next_iff : s ∈ (a.step c states).next ↔ ∃ s' ∈ states, s' ≠ accept ∧
    ∃ t ∈ a.outgoing s', t.label.accepts c = true ∧ s ∈ t.targets := by
  rw [mem_step_next]
  constructor
  · rintro ⟨t, hfired, hs⟩
    obtain ⟨ht, ⟨hsource, hactive⟩, hlabel⟩ := mem_fired.mp hfired
    exact ⟨t.source, hactive, hsource, t, List.mem_filter.mpr ⟨ht, beq_self_eq_true _⟩, hlabel, hs⟩
  · rintro ⟨s', hactive, hsource, t, ht, hlabel, hs⟩
    obtain ⟨hmem, heq⟩ := List.mem_filter.mp ht
    obtain rfl := eq_of_beq heq
    exact ⟨t, mem_fired.mpr ⟨hmem, ⟨hsource, hactive⟩, hlabel⟩, hs⟩

/-- A set of states accepts what one of them accepts. -/
theorem verdict_isSome_iff : (a.verdict states w).isSome ↔ ∃ s ∈ states, a.Accepts w s := by
  induction w generalizing states with
  | nil => simp [verdict, Accepts]
  | cons c cs ih =>
      by_cases hcs : cs = []
      · subst hcs
        have hverdict : (a.verdict states [c]).isSome ↔ accept ∈ (a.step c states).next := by
          rw [verdict]
          split <;> simp_all
        rw [hverdict, mem_step_next_iff]
        simp [Accepts]
      · rw [verdict_goOn hcs, ih]
        simp only [goOn, SortedSet.mem_erase, mem_step_next_iff, Accepts, hcs, false_and, false_or]
        constructor
        · rintro ⟨s', ⟨⟨s, hs, hne, t, ht, hlabel, htarget⟩, -⟩, haccepts⟩
          exact ⟨s, hs, hne, t, ht, hlabel, s', htarget, haccepts⟩
        · rintro ⟨s, hs, hne, t, ht, hlabel, s', htarget, haccepts⟩
          refine ⟨s', ⟨⟨s, hs, hne, t, ht, hlabel, htarget⟩, ?_⟩, haccepts⟩
          rintro rfl
          exact not_accepts_accept haccepts

theorem Confined.goOn {inner : List StateId} {tag : TagId} (h : a.Confined inner tag)
    (hstates : ∀ s ∈ states, s ∈ inner) : ∀ s ∈ a.goOn c states, s ∈ inner := by
  intro s hs
  obtain ⟨hs, hne⟩ := SortedSet.mem_erase.mp hs
  obtain ⟨t, hfired, htarget⟩ := mem_step_next.mp hs
  obtain ⟨ht, ⟨-, hactive⟩, -⟩ := mem_fired.mp hfired
  exact ((h t ht (hstates _ hactive)).1 s htarget).resolve_left hne

/-- From the states of one tag, the tag is all that is found. -/
theorem Confined.tags_eq {inner : List StateId} {tag : TagId} {tags : TagSet}
    (h : a.Confined inner tag) (hstates : ∀ s ∈ states, s ∈ inner)
    (hw : a.verdict states w = some tags) : tags = {tag} := by
  induction w generalizing states with
  | nil => cases hw
  | cons c cs ih =>
      by_cases hcs : cs = []
      · subst hcs
        rw [verdict] at hw
        split at hw
        · next haccept =>
            cases hw
            have hfired (t : Transition) (ht : t ∈ a.fired c states) :=
              h t (mem_fired.mp ht).1 (hstates _ (mem_fired.mp ht).2.1.2)
            obtain ⟨t, ht, htarget⟩ := mem_step_next.mp haccept
            refine Std.ExtTreeSet.ext_mem fun other => ?_
            rw [mem_step_tags, SortedSet.mem_singleton]
            constructor
            · rintro ⟨⟨t', ht', hother⟩, -⟩
              rw [(hfired t' ht').2.1] at hother
              split at hother
              · exact List.mem_singleton.mp hother
              · cases hother
            · rintro rfl
              refine ⟨⟨t, ht, ?_⟩, fun t' ht' => ?_⟩
              · rw [(hfired t ht).2.1, if_pos htarget]
                exact List.mem_singleton_self _
              · rw [(hfired t' ht').2.2]
                exact List.not_mem_nil
        · cases hw
      · rw [verdict_goOn hcs] at hw
        exact ih (h.goOn hstates) hw

/-- Where just some states of the tag are left behind the first character, the words found are
those that lead from one of them to an end, and the tag is all that is found on them. -/
theorem Confined.verdict_cons {inner entry : List StateId} {tag : TagId} {tags : TagSet}
    (h : a.Confined inner tag) (hnext : (a.step c states).next.toList = entry)
    (haccept : accept ∉ entry) (hentry : ∀ s ∈ entry, s ∈ inner) :
    a.verdict states (c :: w) = some tags ↔ (∃ s ∈ entry, a.Accepts w s) ∧ tags = {tag} := by
  have hmem (s : StateId) : s ∈ (a.step c states).next ↔ s ∈ entry := by
    rw [← hnext, Std.ExtTreeSet.mem_toList]
  by_cases hw : w = []
  · subst hw
    rw [verdict, if_neg fun h => haccept ((hmem _).mp h)]
    simp [Accepts]
  · have hgoOn (s : StateId) : s ∈ a.goOn c states ↔ s ∈ entry := by
      rw [Automaton.goOn, SortedSet.mem_erase, hmem]
      exact and_iff_left_of_imp fun hs heq => haccept (heq ▸ hs)
    have hinner : ∀ s ∈ a.goOn c states, s ∈ inner := fun s hs => hentry s ((hgoOn s).mp hs)
    have hsome : (a.verdict (a.goOn c states) w).isSome ↔ ∃ s ∈ entry, a.Accepts w s := by
      simp only [verdict_isSome_iff, hgoOn]
    rw [verdict_goOn hw, ← hsome]
    constructor
    · intro hverdict
      exact ⟨by rw [hverdict]; rfl, h.tags_eq hinner hverdict⟩
    · rintro ⟨hsome, rfl⟩
      obtain ⟨tags, hverdict⟩ := Option.isSome_iff_exists.mp hsome
      rw [hverdict, h.tags_eq hinner hverdict]

end Automaton

/-- Where a text in front of which a character stands is all that is accepted, and with one tag, a
scan finds the longest such text. -/
theorem Source.scan_dedicated {src : Source} {p : Position} {c : Char} {cs : List Char}
    {kind : List Char → Prop} {tag : TagId} (hrest : src.rest p.index = c :: cs)
    (hnil : ¬kind []) (hverdict : ∀ w tags,
      src.lexicon.automaton.verdict src.starts (c :: w) = some tags ↔
        kind (c :: w) ∧ tags = {tag}) :
    ((src.scan p).accepted.isSome ↔ ∃ w, w <+: src.rest p.index ∧ kind w) ∧
    ∀ m, (src.scan p).accepted = some m ↔
      ∃ w, LongestPrefix kind (src.rest p.index) w ∧ m = ⟨{tag}, p.advanceAll w⟩ := by
  have hcons : ∀ w, w <+: src.rest p.index → w = [] ∨ ∃ v, w = c :: v := by
    intro w hw
    rw [hrest] at hw
    obtain rfl | ⟨v, rfl, -⟩ := List.prefix_cons_iff.mp hw
    · exact .inl rfl
    · exact .inr ⟨v, rfl⟩
  have hkind : ∀ w, w <+: src.rest p.index →
      ((src.lexicon.automaton.verdict src.starts w).isSome ↔ kind w) := by
    intro w hw
    obtain rfl | ⟨v, rfl⟩ := hcons w hw
    · exact iff_of_false Bool.false_ne_true hnil
    · simp [Option.isSome_iff_exists, hverdict]
  constructor
  · rw [scan_accepted_isSome_iff]
    exact exists_congr fun w => and_congr_right (hkind w)
  · intro m
    rw [scan_accepted_iff]
    refine exists_congr fun w => ?_
    constructor
    · rintro ⟨hlongest, hw, hstop⟩
      refine ⟨hlongest.congr_of_prefix hkind, ?_⟩
      obtain ⟨tags, stop⟩ := m
      obtain rfl | ⟨v, rfl⟩ := hcons w hlongest.isPrefix
      · cases hw
      · obtain rfl := ((hverdict v tags).mp hw).2
        rw [← hstop]
    · rintro ⟨hlongest, rfl⟩
      refine ⟨hlongest.congr_of_prefix fun v hv => (hkind v hv).symm, ?_, rfl⟩
      obtain rfl | ⟨v, rfl⟩ := hcons w hlongest.isPrefix
      · exact absurd hlongest.isKind hnil
      · exact (hverdict v _).mpr ⟨hlongest.isKind, rfl⟩

end Multipath
