import Multipath.Lexer.Source

/-!
Longest match, apart from how it is found. An automaton either accepts a word from given states,
with the tags of the word's last character, or it does not (`Automaton.verdict`); what a scan finds
is the longest prefix of its text that is accepted so.
-/

namespace Multipath

open Automaton (StateSet accept)

/-- The longest prefix of `cs` of some kind. -/
structure LongestPrefix (kind : List Char → Prop) (cs w : List Char) : Prop where
  isPrefix : w <+: cs
  isKind : kind w
  length_le : ∀ v, v <+: cs → kind v → v.length ≤ w.length

theorem LongestPrefix.congr_of_prefix {kind kind' : List Char → Prop} {cs w : List Char}
    (h : LongestPrefix kind cs w) (hkind : ∀ v, v <+: cs → (kind v ↔ kind' v)) :
    LongestPrefix kind' cs w :=
  ⟨h.isPrefix, (hkind w h.isPrefix).mp h.isKind,
    fun v hv hk => h.length_le v hv ((hkind v hv).mpr hk)⟩

theorem LongestPrefix.congr {kind kind' : List Char → Prop} {cs w : List Char}
    (h : LongestPrefix kind cs w) (hkind : ∀ v, kind v ↔ kind' v) : LongestPrefix kind' cs w :=
  h.congr_of_prefix fun v _ => hkind v

theorem LongestPrefix.unique {kind : List Char → Prop} {cs w w' : List Char}
    (h : LongestPrefix kind cs w) (h' : LongestPrefix kind cs w') : w = w' := by
  have hlength := Nat.le_antisymm (h'.length_le w h.isPrefix h.isKind)
    (h.length_le w' h'.isPrefix h'.isKind)
  exact (List.prefix_of_prefix_length_le h.isPrefix h'.isPrefix (Nat.le_of_eq hlength)).eq_of_length
    hlength

namespace Automaton

/-- The states after a character, where the word goes on. -/
def goOn (a : Automaton) (c : Char) (states : StateSet) : StateSet :=
  (a.step c states).next.erase accept

/-- The tags with which a word is accepted from some states, if it is. -/
def verdict (a : Automaton) : StateSet → List Char → Option TagSet
  | _, [] => none
  | states, [c] =>
    if accept ∈ (a.step c states).next then some (a.step c states).tags else none
  | states, c :: c' :: cs => verdict a (a.goOn c states) (c' :: cs)

variable {a : Automaton} {states : StateSet} {c : Char} {cs w : List Char}

theorem ne_nil_of_verdict {tags : TagSet} (h : a.verdict states w = some tags) : w ≠ [] := by
  rintro rfl
  cases h

/-- Where no state is active, nothing fires. -/
theorem step_empty (c : Char) : (a.step c ∅).next = ∅ := by
  simp [step, fired]

theorem verdict_empty (w : List Char) : a.verdict ∅ w = none := by
  induction w with
  | nil => rfl
  | cons c cs ih =>
      cases cs with
      | nil => simp [verdict, step_empty]
      | cons c' cs =>
          rw [verdict, goOn, step_empty]
          exact ih

theorem verdict_goOn (hne : w ≠ []) :
    a.verdict states (c :: w) = a.verdict (a.goOn c states) w := by
  cases w with
  | nil => exact absurd rfl hne
  | cons c' cs => rfl

/-- A word that is accepted has one character, or what follows is accepted from there. -/
theorem eq_or_of_verdict {tags : TagSet} (hw : a.verdict states w = some tags)
    (hwithin : w <+: c :: cs) : w = [c] ∨
      ∃ v, w = c :: v ∧ v <+: cs ∧ a.verdict (a.goOn c states) v = some tags := by
  obtain rfl | ⟨v, rfl, hv⟩ := List.prefix_cons_iff.mp hwithin
  · cases hw
  · by_cases hnil : v = []
    · exact .inl (congrArg (c :: ·) hnil)
    · rw [verdict_goOn hnil] at hw
      exact .inr ⟨v, rfl, hv, hw⟩

/-- The longest prefix that is accepted from some states. -/
abbrev Longest (a : Automaton) (states : StateSet) : List Char → List Char → Prop :=
  LongestPrefix fun v => (a.verdict states v).isSome

theorem longest_cons (h : a.Longest (a.goOn c states) cs w) :
    a.Longest states (c :: cs) (c :: w) := by
  obtain ⟨tags, hw⟩ := Option.isSome_iff_exists.mp h.isKind
  refine ⟨List.cons_prefix_cons.mpr ⟨rfl, h.isPrefix⟩, ?_, fun v hv hkind => ?_⟩
  · rw [verdict_goOn (ne_nil_of_verdict hw)]
    exact h.isKind
  · obtain ⟨tags', hv'⟩ := Option.isSome_iff_exists.mp hkind
    obtain rfl | ⟨v, rfl, hv, hv'⟩ := eq_or_of_verdict hv' hv
    · simp
    · exact Nat.succ_le_succ (h.length_le v hv (by rw [hv']; rfl))

section NoFurther

/-! Words that cannot go on behind their first character. -/

variable (hnone : ∀ v, v <+: cs → a.verdict (a.goOn c states) v = none)
include hnone

theorem eq_single_of_verdict {tags : TagSet} (hw : a.verdict states w = some tags)
    (hwithin : w <+: c :: cs) : w = [c] := by
  obtain rfl | ⟨v, -, hv, hv'⟩ := eq_or_of_verdict hw hwithin
  · rfl
  · cases (hnone v hv).symm.trans hv'

theorem longest_single (haccept : accept ∈ (a.step c states).next) :
    a.Longest states (c :: cs) [c] := by
  refine ⟨List.cons_prefix_cons.mpr ⟨rfl, List.nil_prefix⟩, ?_, fun v hv hkind => ?_⟩
  · rw [verdict, if_pos haccept]
    rfl
  · obtain ⟨tags, hv'⟩ := Option.isSome_iff_exists.mp hkind
    obtain rfl := eq_single_of_verdict hnone hv' hv
    exact Nat.le_refl _

theorem verdict_of_not_accept (haccept : accept ∉ (a.step c states).next)
    (hwithin : w <+: c :: cs) : a.verdict states w = none := by
  cases hw : a.verdict states w with
  | none => rfl
  | some tags =>
      obtain rfl := eq_single_of_verdict hnone hw hwithin
      rw [verdict, if_neg haccept] at hw
      cases hw

end NoFurther
end Automaton

namespace Scan

variable {a : Automaton}

/-- Either some prefix is accepted, and the longest one is the match, or none is, and the match
stays what it was. -/
theorem feed_longest (cs : List Char) (p : Position) (states : StateSet) (found : Option Match) :
    (∃ w tags, a.Longest states cs w ∧ a.verdict states w = some tags ∧
      (feed a cs p states found).accepted = some ⟨tags, p.advanceAll w⟩) ∨
    (∀ w, w <+: cs → a.verdict states w = none) ∧ (feed a cs p states found).accepted = found := by
  induction cs generalizing p states found with
  | nil =>
      refine .inr ⟨fun w hw => ?_, rfl⟩
      rw [List.prefix_nil.mp hw]
      rfl
  | cons c cs ih =>
      unfold feed
      split
      · next hempty =>
          obtain rfl := Std.ExtTreeSet.isEmpty_iff.mp hempty
          exact .inr ⟨fun w _ => Automaton.verdict_empty w, rfl⟩
      · obtain ⟨w, tags, hl, hw, hfeed⟩ | ⟨hnone, hfeed⟩ := ih (p.advance c) (a.goOn c states)
          (if accept ∈ (a.step c states).next then some ⟨(a.step c states).tags, p.advance c⟩
            else found)
        · refine .inl ⟨c :: w, tags, Automaton.longest_cons hl, ?_, hfeed⟩
          rw [Automaton.verdict_goOn (Automaton.ne_nil_of_verdict hw), hw]
        · -- the word goes no further, so it is accepted here or not at all
          by_cases haccept : accept ∈ (a.step c states).next
          · refine .inl ⟨[c], _, Automaton.longest_single hnone haccept, if_pos haccept, ?_⟩
            exact hfeed.trans (if_pos haccept)
          · exact .inr ⟨fun w => Automaton.verdict_of_not_accept hnone haccept,
              hfeed.trans (if_neg haccept)⟩

end Scan

variable {src : Source} {p : Position} {m : Match}

theorem Source.scan_accepted_isSome_iff : (src.scan p).accepted.isSome ↔
    ∃ w, w <+: src.rest p.index ∧ (src.lexicon.automaton.verdict src.starts w).isSome := by
  obtain ⟨w, tags, hl, hw, hfeed⟩ | ⟨hnone, hfeed⟩ :=
    Scan.feed_longest (a := src.lexicon.automaton) (src.rest p.index) p src.starts none
  · rw [scan, hfeed]
    exact ⟨fun _ => ⟨w, hl.isPrefix, hl.isKind⟩, fun _ => rfl⟩
  · rw [scan, hfeed]
    constructor
    · nofun
    · rintro ⟨w, hw, hkind⟩
      rw [hnone w hw] at hkind
      cases hkind

/-- What a scan accepts is the longest prefix that the automaton accepts, with its tags. -/
theorem Source.scan_accepted_iff : (src.scan p).accepted = some m ↔
    ∃ w, src.lexicon.automaton.Longest src.starts (src.rest p.index) w ∧
      src.lexicon.automaton.verdict src.starts w = some m.tags ∧ m.stop = p.advanceAll w := by
  obtain ⟨w, tags, hl, hw, hfeed⟩ | ⟨hnone, hfeed⟩ :=
    Scan.feed_longest (a := src.lexicon.automaton) (src.rest p.index) p src.starts none
  · rw [scan, hfeed]
    constructor
    · rintro ⟨⟩
      exact ⟨w, hl, hw, rfl⟩
    · rintro ⟨w', hl', hw', hstop⟩
      obtain rfl := hl.unique hl'
      obtain rfl := Option.some.inj (hw.symm.trans hw')
      rw [← hstop]
  · rw [scan, hfeed]
    constructor
    · nofun
    · rintro ⟨w, hl, hw, -⟩
      cases (hnone w hl.isPrefix).symm.trans hw

end Multipath
