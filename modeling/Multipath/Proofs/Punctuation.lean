import Multipath.Proofs.Correspondence
import Multipath.Proofs.LongestMatch
import Multipath.Proofs.Recognition

/-!
Punctuation. A tag may stand for one character: it is asserted over that character only, and only
where a match begins. A token with the tag is then this character, and which tags it can have
besides depends on the start states alone. So the tokens that a rule generates are told apart from
punctuation by the tags that the rule reads; and where all tokens in front of the first one of some
other kind are of a kind, these are the same however the text is read.
-/

namespace Multipath

open Automaton (StateSet Transition)

/-- The only character that a class of one character accepts. -/
def CharClass.only? : CharClass → Option Char
  | .char c => some c
  | _ => none

theorem CharClass.eq_of_only? {k : CharClass} {c d : Char} (hk : k.only? = some c)
    (hd : k.accepts d = true) : d = c := by
  cases k with
  | char c' =>
      obtain rfl := Option.some.inj hk
      rw [accepts, beq_iff_eq] at hd
      exact hd.symm
  | _ => cases hk

namespace Automaton

variable {a : Automaton} {states : StateSet} {c : Char} {w : List Char} {tag : TagId}

theorem mem_fired {t : Transition} : t ∈ a.fired c states ↔
    t ∈ a.transitions ∧ (t.source ≠ accept ∧ t.source ∈ states) ∧ t.label.accepts c = true := by
  simp [fired, and_assoc]

/-- The tag is asserted only where no transition leads. -/
def AssertsFirst (a : Automaton) (tag : TagId) : Prop :=
  ∀ t ∈ a.transitions, tag ∈ t.asserts → ∀ t' ∈ a.transitions, t.source ∉ t'.targets

/-- A tag that is asserted first is a tag of words of one character only. -/
theorem AssertsFirst.single {tags : TagSet} (h : a.AssertsFirst tag)
    (hw : a.verdict states w = some tags) (htag : tag ∈ tags) :
    ∃ c, w = [c] ∧ tags = (a.step c states).tags := by
  induction w generalizing states with
  | nil => cases hw
  | cons c cs ih =>
      cases cs with
      | nil =>
          rw [verdict] at hw
          split at hw
          · exact ⟨c, rfl, (Option.some.inj hw).symm⟩
          · cases hw
      | cons c' cs =>
          obtain ⟨d, -, rfl⟩ := ih hw
          obtain ⟨⟨t, hfired, hasserts⟩, -⟩ := mem_step_tags.mp htag
          obtain ⟨ht, ⟨-, hactive⟩, -⟩ := mem_fired.mp hfired
          obtain ⟨t', hfired', htarget⟩ := mem_step_next.mp (SortedSet.mem_erase.mp hactive).1
          exact absurd htarget (h t ht hasserts t' (mem_fired.mp hfired').1)

end Automaton

namespace Lexicon

/-- The states that tags open under one condition or another. -/
def openable (l : Lexicon) : List Automaton.StateId :=
  l.tags.flatMap fun tag => tag.openings.flatMap (·.states)

theorem mem_openable {l : Lexicon} {conditions : Conditions} {state : Automaton.StateId}
    (h : state ∈ l.startStates conditions) : state ∈ l.openable := by
  obtain ⟨tag, htag, hstate⟩ := List.mem_flatMap.mp (SortedSet.mem_ofList.mp h)
  obtain ⟨opening, hopening, hstate⟩ := List.mem_flatMap.mp hstate
  exact List.mem_flatMap.mpr
    ⟨tag, htag, List.mem_flatMap.mpr ⟨opening, (List.mem_filter.mp hopening).1, hstate⟩⟩

/-- The tag stands for the character, and other tags on the character are among `company`. -/
def standsFor (l : Lexicon) (tag : TagId) (c : Char) (company : List TagId) : Bool :=
  l.automaton.transitions.all fun t =>
    (!t.asserts.contains tag || t.label.only? == some c &&
      l.automaton.transitions.all fun t' => !t'.targets.contains t.source) &&
    (!(l.openable.contains t.source && t.label.accepts c) || t.asserts.all company.contains)

variable {l : Lexicon} {tag : TagId} {c : Char} {company : List TagId} {t : Transition}

theorem only?_of_standsFor (h : l.standsFor tag c company = true)
    (ht : t ∈ l.automaton.transitions) (hasserts : tag ∈ t.asserts) :
    t.label.only? = some c := by
  have hall := List.all_eq_true.mp h t ht
  simp only [Bool.and_eq_true, Bool.or_eq_true, Bool.not_eq_true'] at hall
  exact eq_of_beq (hall.1.resolve_left (by simp [hasserts])).1

theorem assertsFirst_of_standsFor (h : l.standsFor tag c company = true) :
    l.automaton.AssertsFirst tag := by
  intro t ht hasserts t' ht'
  have hall := List.all_eq_true.mp h t ht
  simp only [Bool.and_eq_true, Bool.or_eq_true, Bool.not_eq_true'] at hall
  simpa using List.all_eq_true.mp (hall.1.resolve_left (by simp [hasserts])).2 t' ht'

theorem mem_company_of_standsFor (h : l.standsFor tag c company = true)
    (ht : t ∈ l.automaton.transitions) (hopenable : t.source ∈ l.openable)
    (haccepts : t.label.accepts c = true) {other : TagId} (hother : other ∈ t.asserts) :
    other ∈ company := by
  have hall := List.all_eq_true.mp h t ht
  simp only [Bool.and_eq_true, Bool.or_eq_true, Bool.not_eq_true'] at hall
  simpa using List.all_eq_true.mp (hall.2.resolve_left (by simp [hopenable, haccepts])) other hother

end Lexicon

namespace Source

variable {src : Source} {p q m m' : Position} {t : Token} {ts us : List Token}

/-- A token has the visible tags of some match. -/
theorem exists_verdict_of_token (h : src.token p = .ok t) :
    ∃ w tags, src.lexicon.automaton.verdict src.starts w = some tags ∧
      t.tags = tags \ src.ignored := by
  fun_induction src.token p with
  | case1 p m hm visible _ ih => exact ih h
  | case2 p m hm visible _ =>
      cases h
      obtain ⟨w, -, hw, -⟩ := scan_accepted_iff.mp hm
      exact ⟨w, m.tags, hw, rfl⟩
  | case3 => cases h
  | case4 => cases h

/-- Besides a tag that stands for a character, a token has no tags but its company. -/
theorem mem_company {tag other : TagId} {c : Char} {company : List TagId}
    (hstands : src.lexicon.standsFor tag c company = true) (h : src.token p = .ok t)
    (htag : t.hasTag tag = true) (hother : t.hasTag other = true) : other ∈ company := by
  obtain ⟨w, tags, hw, htags⟩ := exists_verdict_of_token h
  simp only [Token.hasTag, decide_eq_true_eq, htags, Std.ExtTreeSet.mem_diff_iff] at htag hother
  obtain ⟨d, rfl, rfl⟩ := (Lexicon.assertsFirst_of_standsFor hstands).single hw htag.1
  obtain ⟨⟨t₁, hfired₁, hasserts₁⟩, -⟩ := Automaton.mem_step_tags.mp htag.1
  obtain ⟨⟨t₂, hfired₂, hasserts₂⟩, -⟩ := Automaton.mem_step_tags.mp hother.1
  obtain ⟨ht₁, -, haccepts₁⟩ := Automaton.mem_fired.mp hfired₁
  obtain ⟨ht₂, ⟨-, hactive₂⟩, haccepts₂⟩ := Automaton.mem_fired.mp hfired₂
  obtain rfl := CharClass.eq_of_only? (Lexicon.only?_of_standsFor hstands ht₁ hasserts₁) haccepts₁
  rw [src.starts_eq] at hactive₂
  exact Lexicon.mem_company_of_standsFor hstands ht₂ (Lexicon.mem_openable hactive₂) haccepts₂
    hasserts₂

theorem Chain.read (h : src.Chain p ts q) : ∀ t ∈ ts, ∃ m, src.token m = .ok t := by
  induction h with
  | nil => simp
  | cons ht _ ih =>
      intro t hmem
      obtain rfl | hmem := List.mem_cons.mp hmem
      · exact ⟨_, ht⟩
      · exact ih t hmem

/-- However the tokens of a kind are read that stand in front of one of another kind, they are the
first of all that stand there. -/
theorem Chain.front {kind : Token → Prop} (h : src.Chain p ts m) (ht : src.token m = .ok t)
    (hnot : ¬kind t) (h' : src.Chain p us m') (hkind : ∀ u ∈ us, kind u) :
    ∃ vs, ts = us ++ vs ∧ src.Chain m' vs m := by
  induction h' generalizing ts with
  | nil => exact ⟨ts, rfl, h⟩
  | @cons p u us q hu _ ih =>
      cases h with
      | nil =>
          obtain rfl := Except.ok.inj (ht.symm.trans hu)
          exact absurd (hkind t (by simp)) hnot
      | @cons _ u' ts _ hu' h =>
          obtain rfl := Except.ok.inj (hu.symm.trans hu')
          obtain ⟨vs, rfl, hvs⟩ := ih h fun v hv => hkind v (by simp [hv])
          exact ⟨vs, rfl, hvs⟩

/-- The first token of another kind is found in one place. -/
theorem Chain.first_eq {kind : Token → Prop} (h : src.Chain p ts m) (ht : src.token m = .ok t)
    (hnot : ¬kind t) (hts : ∀ u ∈ ts, kind u) {t' : Token} (h' : src.Chain p us m')
    (ht' : src.token m' = .ok t') (hnot' : ¬kind t') (hus : ∀ u ∈ us, kind u) : m' = m := by
  obtain ⟨vs, rfl, hvs⟩ := h.front ht hnot h' hus
  obtain ⟨ws, hws, -⟩ := h'.front ht' hnot' h hts
  have hnil : vs = [] := by
    have hlength := congrArg List.length hws
    simp only [List.length_append] at hlength
    exact List.eq_nil_of_length_eq_zero (by omega)
  subst hnil
  cases hvs
  rfl

end Source

section MentionsOnly

/-- Has no terminals and references but these, and no switches. -/
def Rule.mentionsOnly (tags : TagId → Bool) (rules : RuleId → Bool) (rule : Rule) : Bool :=
  rule.parts.all fun
    | .terminal tag => tags tag
    | .nonterminal r => rules r
    | .switch .. => false
    | _ => true

variable {g : Grammar} {tags : TagId → Bool} {rules : RuleId → Bool} {rule : Rule}
  {ts : List Token}

theorem Rule.rules_of_mentionsOnly {r : RuleId} (h : rule.mentionsOnly tags rules = true)
    (hr : .nonterminal r ∈ rule.parts) : rules r = true := List.all_eq_true.mp h _ hr

theorem Rule.switchedAlike_of_mentionsOnly (h : rule.mentionsOnly tags rules = true)
    (g g' : Grammar) : SwitchedAlike g g' rule := by
  intro feature body hswitch
  cases List.all_eq_true.mp h _ hswitch

theorem Rule.mentionsOnly_of_parts {part : Rule} (h : rule.mentionsOnly tags rules = true)
    (hparts : ∀ x ∈ part.parts, x ∈ rule.parts) : part.mentionsOnly tags rules = true :=
  List.all_eq_true.mpr fun x hx => List.all_eq_true.mp h x (hparts x hx)

/-- The tokens that a rule generates have tags that it mentions, or that are mentioned by rules it
refers to. -/
theorem Grammar.Generates.hasTag (h : g.Generates rule ts)
    (hrules : ∀ r definition, rules r = true → g.rule? r = some definition →
      definition.body.mentionsOnly tags rules = true)
    (honly : rule.mentionsOnly tags rules = true) :
    ∀ t ∈ ts, ∃ tag, tags tag = true ∧ t.hasTag tag = true := by
  induction h with
  | @terminal tag t htag =>
      intro u hu
      obtain rfl := List.mem_singleton.mp hu
      exact ⟨tag, List.all_eq_true.mp honly (.terminal tag) (by simp [Rule.parts]), htag⟩
  | @nonterminal r _ _ hdef _ ih =>
      exact ih (hrules r _ (Rule.rules_of_mentionsOnly honly (by simp [Rule.parts])) hdef)
  | nil | skip | stop | disabled => simp
  | cons _ _ ih ihs =>
      intro t ht
      obtain ht | ht := List.mem_append.mp ht
      · refine ih (Rule.mentionsOnly_of_parts honly fun x hx => ?_) t ht
        simp [Rule.parts, Rule.partsAll, hx]
      · refine ihs (List.all_eq_true.mpr fun x hx => ?_) t ht
        obtain rfl | hx := List.mem_cons.mp (by simpa [Rule.parts] using hx)
        · rfl
        · exact List.all_eq_true.mp honly x (by simp [Rule.parts, Rule.partsAll, hx])
  | again _ _ ih ihs =>
      intro t ht
      obtain ht | ht := List.mem_append.mp ht
      · exact ih (Rule.mentionsOnly_of_parts honly fun x hx => by simp [Rule.parts, hx]) t ht
      · exact ihs honly t ht
  | choice hc _ ih =>
      exact ih (Rule.mentionsOnly_of_parts honly fun x hx => by
        simpa [Rule.parts] using .inr (Rule.mem_partsAll hc hx))
  | take _ ih | enabled _ _ ih =>
      exact ih (Rule.mentionsOnly_of_parts honly fun x hx => by simp [Rule.parts, hx])

end MentionsOnly

end Multipath
