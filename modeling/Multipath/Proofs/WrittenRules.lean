import Multipath.Proofs.Assembly
import Multipath.Proofs.Legibility

/-!
Rules as they are written. Sequences are written without brackets, so what stands side by side may
come from sequences in sequences, and only normal rules can be read back. Of these there are two
that look the same, the empty sequence and the empty alternation; up to that the text of a rule
tells the rule (`Rule.text_eq_iff`). A rule is read as a list of parts that are no sequences: each
of them is a name or stands in brackets of its own, and behind the last one there is no space,
unless it is that in front of a bar.
-/

namespace Multipath

namespace Rule

/-- The characters that the parts of a rule are set off by. -/
def punctuation : List Char := [' ', '|', '(', ')', '[', ']', '\x7b', '\x7d']

/-- A name that is not empty and has no punctuation in it. -/
def IsWord (name : String) : Prop := name ≠ "" ∧ ∀ c ∈ name.toList, c ∉ punctuation

instance (name : String) : Decidable (IsWord name) :=
  have : Decidable (∀ c ∈ name.toList, c ∉ punctuation) := List.decidableBAll _ _
  inferInstanceAs (Decidable (_ ∧ _))

/-- A tag or another rule, which is written as its name. -/
def isReference : Rule → Bool
  | .terminal _ | .nonterminal _ => true
  | _ => false

/-- The bracket that opens a rule. -/
def opening? : Rule → Option Char
  | .alternation _ => some '('
  | .optional _ => some '['
  | .repetition _ => some '\x7b'
  | _ => none

/-- The tags and rules among the parts are named by words, each by one of its own. -/
structure Names.TellApart (names : Names) (parts : List Rule) : Prop where
  word : ∀ r ∈ parts, r.isReference → IsWord (r.text names)
  distinct : ∀ r ∈ parts, ∀ s ∈ parts, r.isReference → s.isReference →
    r.text names = s.text names → r = s

instance (names : Names) (parts : List Rule) : Decidable (names.TellApart parts) :=
  decidable_of_iff
    ((∀ r ∈ parts, r.isReference → IsWord (r.text names)) ∧
      ∀ r ∈ parts, ∀ s ∈ parts, r.isReference → s.isReference →
        r.text names = s.text names → r = s)
    ⟨fun h => ⟨h.1, h.2⟩, fun h => ⟨h.word, h.distinct⟩⟩

theorem Names.TellApart.mono {names : Names} {parts parts' : List Rule}
    (h : names.TellApart parts') (hsub : parts ⊆ parts') : names.TellApart parts where
  word r hr := h.word r (hsub hr)
  distinct r hr s hs := h.distinct r (hsub hr) s (hsub hs)

mutual

/-- The rule with the empty sequence for each empty alternation. -/
def mergeEmpty : Rule → Rule
  | .sequence items => .sequence (mergeEmptyAll items)
  | .alternation [] => .empty
  | .alternation (choice :: choices) => .alternation (mergeEmpty choice :: mergeEmptyAll choices)
  | .optional body => .optional (mergeEmpty body)
  | .repetition body => .repetition (mergeEmpty body)
  | .switch feature body => .switch feature (mergeEmpty body)
  | .terminal tag => .terminal tag
  | .nonterminal rule => .nonterminal rule

def mergeEmptyAll : List Rule → List Rule
  | [] => []
  | r :: rs => mergeEmpty r :: mergeEmptyAll rs

end

theorem mergeEmptyAll_eq (rs : List Rule) : mergeEmptyAll rs = rs.map mergeEmpty := by
  induction rs with
  | nil => rfl
  | cons r rs ih => simp [mergeEmptyAll, ih]

theorem mergeEmpty_alternation {choices : List Rule} (h : choices ≠ []) :
    mergeEmpty (.alternation choices) = .alternation (choices.map mergeEmpty) := by
  cases choices with
  | nil => exact absurd rfl h
  | cons choice choices => simp [mergeEmpty, mergeEmptyAll_eq]

theorem texts_eq (names : Names) (rs : List Rule) : texts names rs = rs.map (text names) := by
  induction rs with
  | nil => rfl
  | cons r rs ih => simp [texts, ih]

/-- Where parts are written in the same way, so is the rule. -/
theorem text_mergeEmpty (names : Names) (rule : Rule) :
    rule.mergeEmpty.text names = rule.text names := by
  induction rule using mergeEmpty.induct (motive_2 := fun rs =>
    texts names (mergeEmptyAll rs) = texts names rs) with
  | case1 items ih => cases items <;> simp_all [mergeEmpty, mergeEmptyAll, text, texts]
  | _ => simp_all [mergeEmpty, mergeEmptyAll, text, texts, empty]

/-- The parts that a rule is written as, side by side. -/
def spelled : Rule → List Rule
  | .sequence [] => [.alternation []]
  | .sequence (item :: items) => item :: items
  | r => [r]

theorem spelled_ne_nil (rule : Rule) : rule.spelled ≠ [] := by
  rcases rule with (_ | _) | _ | _ | _ | _ | _ | _ <;> simp [spelled]

theorem toList_text (names : Names) (rule : Rule) : (rule.text names).toList =
    [' '].intercalate (rule.spelled.map fun r => (r.text names).toList) := by
  rcases rule with (_ | ⟨item, items⟩) | _ | _ | _ | _ | _ | _
  case sequence.cons =>
    simp [text, texts_eq, spelled, String.toList_intercalate, Function.comp_def]
  case sequence.nil => simp [text, texts, spelled]
  all_goals simp [spelled]

/-- A settled rule is told by what it is spelled as. -/
theorem mergeEmpty_eq_sequenceOf {rule : Rule} (h : rule.IsSettled) :
    rule.mergeEmpty = sequenceOf (rule.spelled.map mergeEmpty) := by
  rcases rule with (_ | ⟨item, items⟩) | _ | _ | _ | _ | _ | _
  case sequence.cons =>
    rw [sequenceOf_of_length_ne (by simpa [spelled] using h.1), mergeEmpty, mergeEmptyAll_eq]
    rfl
  all_goals rfl

section Scripts

variable {names : Names} {parts : List Rule} {r : Rule} {s t : List Char}

/-- A normal rule with no references but those among the parts. -/
def RefersWithin (parts : List Rule) (rule : Rule) : Prop :=
  ∀ r ∈ rule.parts, r.IsSettled ∧ (r.isReference → r ∈ parts)

theorem refersWithin_self {rule : Rule} (h : rule.IsNormal) (hparts : rule.parts ⊆ parts) :
    rule.RefersWithin parts := fun r hr => ⟨h r hr, fun _ => hparts hr⟩

theorem refersWithin_sequence {items : List Rule} : (sequence items).RefersWithin parts ↔
    (sequence items).IsSettled ∧ ∀ r ∈ items, r.RefersWithin parts := by
  simp only [RefersWithin, Rule.parts, List.forall_mem_cons, mem_partsAll_iff]
  grind [isReference]

theorem refersWithin_alternation {choices : List Rule} : (alternation choices).RefersWithin parts ↔
    (alternation choices).IsSettled ∧ ∀ r ∈ choices, r.RefersWithin parts := by
  simp only [RefersWithin, Rule.parts, List.forall_mem_cons, mem_partsAll_iff]
  grind [isReference]

theorem refersWithin_optional {body : Rule} : (optional body).RefersWithin parts ↔
    body.IsPlainBody ∧ body.RefersWithin parts := by
  simp [RefersWithin, Rule.parts, IsSettled, isReference]

theorem refersWithin_repetition {body : Rule} : (repetition body).RefersWithin parts ↔
    body.IsPlainBody ∧ body.RefersWithin parts := by
  simp [RefersWithin, Rule.parts, IsSettled, isReference]

/-- Rules as they stand side by side, in front of punctuation. -/
def itemScript (names : Names) (parts : List Rule) : Script Char Rule Rule where
  write r := (r.text names).toList
  shows := mergeEmpty
  Kind r := r.RefersWithin parts ∧ r.isSequence = false
  Rest s := ∀ c ∈ s.head?, c ∈ punctuation

/-- Rules as they stand in brackets, in front of the closing one or of a bar. -/
def bodyScript (names : Names) (parts : List Rule) : Script Char Rule Rule where
  write r := (r.text names).toList
  shows := mergeEmpty
  Kind r := r.RefersWithin parts
  Rest s := (∀ c ∈ s.head?, c = ')' ∨ c = ']' ∨ c = '\x7d') ∨ ∃ u, s = ' ' :: '|' :: u

theorem kind_of_mem_spelled (names : Names) (h : r.RefersWithin parts) :
    ∀ x ∈ r.spelled, (itemScript names parts).Kind x := by
  rcases r with (_ | ⟨item, items⟩) | _ | _ | _ | _ | _ | _
  case sequence.cons =>
    rw [refersWithin_sequence] at h
    exact fun x hx => ⟨h.2 x hx, h.1.2 x hx⟩
  case sequence.nil =>
    have hempty : (alternation []).RefersWithin parts := by
      simp [refersWithin_alternation, IsSettled]
    simpa [spelled] using ⟨hempty, rfl⟩
  all_goals simpa [spelled] using ⟨h, rfl⟩

section Heads
variable (hnames : names.TellApart parts)
include hnames

/-- A reference among the parts is written with no punctuation. -/
theorem reference_word (h : (itemScript names parts).Kind r) (hr : r.isReference) :
    IsWord (r.text names) := by
  have hmem : r ∈ r.parts := by
    cases r <;> simp [Rule.parts]
  exact hnames.word r ((h.1 r hmem).2 hr) hr

theorem reference_ne (h : (itemScript names parts).Kind r) (hr : r.isReference) {c : Char}
    (hc : c ∈ punctuation) : (r.text names).toList ++ s ≠ c :: t := by
  obtain ⟨hne, hword⟩ := reference_word hnames h hr
  cases hcs : (r.text names).toList with
  | nil => exact absurd (String.toList_eq_nil_iff.mp hcs) hne
  | cons d cs =>
      intro heq
      obtain rfl := (List.cons.inj heq).1
      exact hword d (by simp [hcs]) hc

omit hnames in
/-- An item is written as a name or begins with its bracket. -/
theorem item_cases (h : (itemScript names parts).Kind r) : r.isReference = true ∨
    ∃ c ∈ ['(', '[', '\x7b'], r.opening? = some c ∧ ∃ u, (r.text names).toList = c :: u := by
  cases r with
  | terminal | nonterminal => exact .inl rfl
  | sequence => cases h.2
  | switch => exact (h.1 _ List.mem_cons_self).1.elim
  | alternation | optional | repetition =>
      simp only [text, String.toList_append]
      exact .inr ⟨_, by decide, rfl, _, rfl⟩

theorem item_ne (h : (itemScript names parts).Kind r) {c : Char}
    (hc : c ∈ [' ', '|', ')', ']', '\x7d']) : (r.text names).toList ++ s ≠ c :: t := by
  obtain hr | ⟨d, hd, -, u, hu⟩ := item_cases h
  · refine reference_ne hnames h hr ?_
    simp only [punctuation, List.mem_cons] at hc ⊢
    tauto
  · rw [hu]
    intro heq
    obtain rfl := (List.cons.inj heq).1
    simp only [List.mem_cons, List.not_mem_nil, or_false] at hc hd
    obtain rfl | rfl | rfl := hd <;> simp at hc

theorem body_ne (h : r.RefersWithin parts) {c : Char} (hc : c ∈ [' ', '|', ')', ']', '\x7d']) :
    (r.text names).toList ++ s ≠ c :: t := by
  have hkind := kind_of_mem_spelled names h
  rw [toList_text]
  cases hspelled : r.spelled with
  | nil => exact absurd hspelled r.spelled_ne_nil
  | cons x xs =>
      rw [List.map_cons, Script.intercalate_cons, List.append_assoc]
      exact item_ne hnames (hkind x (by simp [hspelled])) hc

/-- A rule is read part by part. -/
theorem body_legible (h : r.RefersWithin parts)
    (hitems : ∀ x ∈ r.spelled, (itemScript names parts).Legible x) :
    (bodyScript names parts).Legible r := by
  intro r' s t h' hs ht heq
  have hrest (y : Rule) (u : List Char) : (itemScript names parts).Kind y →
      (itemScript names parts).Rest ([' '] ++ ((y.text names).toList ++ u)) := by
    intro _ c hc
    obtain rfl : ' ' = c := by simpa using hc
    decide
  have hends {u : List Char} (hu : (bodyScript names parts).Rest u) :
      (itemScript names parts).Ends [' '] u := by
    obtain hu | ⟨u, rfl⟩ := hu
    · refine ⟨fun c hc => ?_, fun y v _ heq => ?_⟩
      · obtain rfl | rfl | rfl := hu c hc <;> decide
      · have := hu ' ' (by simp [heq])
        simp at this
    · refine ⟨fun c hc => ?_, fun y v hy heq => ?_⟩
      · obtain rfl : ' ' = c := by simpa using hc
        decide
      · exact item_ne hnames hy (by simp) (List.cons.inj heq).2.symm
  have hread := Script.intercalate_legible hrest
    (fun x hx => ⟨kind_of_mem_spelled names h x hx, hitems x hx⟩) (kind_of_mem_spelled names h')
    (hends hs) (hends ht) r.spelled_ne_nil r'.spelled_ne_nil
    (by simpa only [bodyScript, itemScript, toList_text names r, toList_text names r'] using heq)
  refine ⟨?_, hread.2⟩
  have hsettled {x : Rule} (hx : x.RefersWithin parts) : x.IsSettled :=
    (hx x (by cases x <;> simp [Rule.parts])).1
  calc r.mergeEmpty = sequenceOf (r.spelled.map mergeEmpty) :=
        mergeEmpty_eq_sequenceOf (hsettled h)
    _ = sequenceOf (r'.spelled.map mergeEmpty) := congrArg sequenceOf hread.1
    _ = r'.mergeEmpty := (mergeEmpty_eq_sequenceOf (hsettled h')).symm

theorem opening_of_text (h : (itemScript names parts).Kind r) {c : Char} (hc : c ∈ punctuation)
    (heq : c :: t = (r.text names).toList ++ s) : r.opening? = some c := by
  obtain hr | ⟨d, -, hopening, u, hu⟩ := item_cases h
  · exact absurd heq.symm (reference_ne hnames h hr hc)
  · rw [hu] at heq
    rw [hopening, (List.cons.inj heq).1]

theorem reference_legible (h : (itemScript names parts).Kind r) (hr : r.isReference) :
    (itemScript names parts).Legible r := by
  intro r' s t h' hs ht heq
  obtain hr' | ⟨c, hc, -, u, hu⟩ := item_cases h'
  · have hword := reference_word hnames h hr
    have hword' := reference_word hnames h' hr'
    obtain ⟨htext, hst⟩ := append_inj_of_head (· ∉ punctuation) hword.2 hword'.2
      (fun c hc => not_not_intro (hs c hc)) (fun c hc => not_not_intro (ht c hc)) heq
    have hself {x : Rule} (hx : x.isReference) : x ∈ x.parts := by
      cases x <;> simp [Rule.parts]
    have heq := hnames.distinct r ((h.1 r (hself hr)).2 hr) r' ((h'.1 r' (hself hr')).2 hr') hr hr'
      (String.toList_inj.mp htext)
    exact ⟨congrArg mergeEmpty heq, hst⟩
  · have hpunctuation : c ∈ punctuation := by
      simp only [punctuation, List.mem_cons] at hc ⊢
      tauto
    have hu' : (r'.text names).toList ++ t = c :: (u ++ t) := by
      rw [hu]
      rfl
    exact absurd (heq.trans hu') (reference_ne hnames h hr hpunctuation)

end Heads

/-- What stands between two brackets is read by itself. -/
theorem bracketed_legible {body body' : Rule} {c : Char} (hc : c = ']' ∨ c = '\x7d')
    (hbody : (bodyScript names parts).Legible body) (h' : body'.RefersWithin parts)
    (heq : (body.text names).toList ++ c :: s = (body'.text names).toList ++ c :: t) :
    body.mergeEmpty = body'.mergeEmpty ∧ s = t := by
  have hrest (u : List Char) : (bodyScript names parts).Rest (c :: u) := by
    refine .inl fun d hd => ?_
    obtain rfl : c = d := by simpa using hd
    exact .inr hc
  have hread := hbody body' _ _ h' (hrest s) (hrest t) heq
  exact ⟨hread.1, (List.cons.inj hread.2).2⟩

theorem choices_legible {choices choices' : List Rule}
    (h : ∀ r ∈ choices, r.RefersWithin parts ∧ (bodyScript names parts).Legible r)
    (h' : ∀ r ∈ choices', r.RefersWithin parts) (hsome : choices ≠ []) (hsome' : choices' ≠ [])
    (heq : [' ', '|', ' '].intercalate (choices.map fun r => (r.text names).toList) ++ ')' :: s =
      [' ', '|', ' '].intercalate (choices'.map fun r => (r.text names).toList) ++ ')' :: t) :
    choices.map mergeEmpty = choices'.map mergeEmpty ∧ s = t := by
  have hends (u : List Char) : (bodyScript names parts).Ends [' ', '|', ' '] (')' :: u) :=
    ⟨.inl fun c hc => .inl (by simpa using hc.symm), fun y v _ => by simp⟩
  have hread := Script.intercalate_legible (w := bodyScript names parts)
    (fun y u _ => .inr ⟨_, rfl⟩) h h' (hends s) (hends t) hsome hsome' heq
  exact ⟨hread.1, (List.cons.inj hread.2).2⟩

section Legible
variable (hnames : names.TellApart parts)
include hnames

theorem alternation_legible {choices : List Rule}
    (h : (itemScript names parts).Kind (.alternation choices))
    (hchoices : ∀ r ∈ choices, (bodyScript names parts).Legible r) :
    (itemScript names parts).Legible (.alternation choices) := by
  intro r' s t h' hs ht heq
  have hwithin := (refersWithin_alternation.mp h.1).2
  have hopen (rs : List Rule) (u : List Char) : ((alternation rs).text names).toList ++ u =
      '(' :: ([' ', '|', ' '].intercalate (rs.map fun r => (r.text names).toList) ++ ')' :: u) := by
    simp [text, texts_eq, String.toList_intercalate, Function.comp_def]
  have hopening : r'.opening? = some '(' :=
    opening_of_text hnames h' (by decide) ((hopen choices s).symm.trans heq)
  obtain ⟨choices', rfl⟩ : ∃ choices', r' = .alternation choices' := by
    cases r' <;> simp [opening?] at hopening ⊢
  have hwithin' := (refersWithin_alternation.mp h'.1).2
  have heq' := (hopen choices s).symm.trans (heq.trans (hopen choices' t))
  have hclosed (r : Rule) (rs : List Rule) (hr : r.RefersWithin parts) (u v : List Char) :
      ')' :: u ≠
        [' ', '|', ' '].intercalate ((r :: rs).map fun r => (r.text names).toList) ++ v := by
    rw [List.map_cons, Script.intercalate_cons, List.append_assoc]
    exact (body_ne hnames hr (by simp)).symm
  have heq' := (List.cons.inj heq').2
  cases choices with
  | nil =>
      cases choices' with
      | nil => exact ⟨rfl, (List.cons.inj heq').2⟩
      | cons r' rs' => exact absurd heq' (hclosed r' rs' (hwithin' r' List.mem_cons_self) _ _)
  | cons r rs =>
      cases choices' with
      | nil => exact absurd heq'.symm (hclosed r rs (hwithin r List.mem_cons_self) _ _)
      | cons r' rs' =>
          obtain ⟨hmap, hst⟩ := choices_legible
            (fun x hx => ⟨hwithin x hx, hchoices x hx⟩) hwithin' (by simp) (by simp) heq'
          refine ⟨?_, hst⟩
          calc mergeEmpty (.alternation (r :: rs)) = .alternation ((r :: rs).map mergeEmpty) :=
                mergeEmpty_alternation (by simp)
            _ = .alternation ((r' :: rs').map mergeEmpty) := congrArg alternation hmap
            _ = mergeEmpty (.alternation (r' :: rs')) := (mergeEmpty_alternation (by simp)).symm

theorem optional_legible {body : Rule} (hbody : (bodyScript names parts).Legible body) :
    (itemScript names parts).Legible (.optional body) := by
  intro r' s t h' hs ht heq
  have hopen (r : Rule) (u : List Char) : ((optional r).text names).toList ++ u =
      '[' :: ((r.text names).toList ++ ']' :: u) := by
    simp [text]
  have hopening : r'.opening? = some '[' :=
    opening_of_text hnames h' (by decide) ((hopen body s).symm.trans heq)
  obtain ⟨body', rfl⟩ : ∃ body', r' = .optional body' := by
    cases r' <;> simp [opening?] at hopening ⊢
  have heq' := (hopen body s).symm.trans (heq.trans (hopen body' t))
  obtain ⟨hmerge, hst⟩ := bracketed_legible (.inl rfl) hbody (refersWithin_optional.mp h'.1).2
    (List.cons.inj heq').2
  exact ⟨congrArg optional hmerge, hst⟩

theorem repetition_legible {body : Rule} (hbody : (bodyScript names parts).Legible body) :
    (itemScript names parts).Legible (.repetition body) := by
  intro r' s t h' hs ht heq
  have hopen (r : Rule) (u : List Char) : ((repetition r).text names).toList ++ u =
      '\x7b' :: ((r.text names).toList ++ '\x7d' :: u) := by
    simp [text]
  have hopening : r'.opening? = some '\x7b' :=
    opening_of_text hnames h' (by decide) ((hopen body s).symm.trans heq)
  obtain ⟨body', rfl⟩ : ∃ body', r' = .repetition body' := by
    cases r' <;> simp [opening?] at hopening ⊢
  have heq' := (hopen body s).symm.trans (heq.trans (hopen body' t))
  obtain ⟨hmerge, hst⟩ := bracketed_legible (.inr rfl) hbody (refersWithin_repetition.mp h'.1).2
    (List.cons.inj heq').2
  exact ⟨congrArg repetition hmerge, hst⟩

end Legible

mutual

theorem spelled_legible (hnames : names.TellApart parts) : ∀ r : Rule, r.RefersWithin parts →
    ∀ x ∈ r.spelled, (itemScript names parts).Legible x
  | .sequence [], h => by
      have hempty := kind_of_mem_spelled names h
      simp only [spelled, List.forall_mem_singleton] at hempty ⊢
      exact alternation_legible hnames hempty (by simp)
  | .sequence (item :: items), h => by
      rw [refersWithin_sequence] at h
      intro x hx
      refine allSpelled_legible hnames (item :: items) h.2 x hx x ?_
      have hplain := h.1.2 x hx
      cases x <;> simp [spelled, isSequence] at hplain ⊢
  | .alternation choices, h => by
      have hwithin := (refersWithin_alternation.mp h).2
      have hall := allSpelled_legible hnames choices hwithin
      simp only [spelled, List.forall_mem_singleton]
      exact alternation_legible hnames ⟨h, rfl⟩ fun r hr =>
        body_legible hnames (hwithin r hr) (hall r hr)
  | .optional body, h => by
      rw [refersWithin_optional] at h
      simp only [spelled, List.forall_mem_singleton]
      exact optional_legible hnames (body_legible hnames h.2 (spelled_legible hnames body h.2))
  | .repetition body, h => by
      rw [refersWithin_repetition] at h
      simp only [spelled, List.forall_mem_singleton]
      exact repetition_legible hnames (body_legible hnames h.2 (spelled_legible hnames body h.2))
  | .terminal _, h | .nonterminal _, h => by
      simp only [spelled, List.forall_mem_singleton]
      exact reference_legible hnames ⟨h, rfl⟩ rfl
  | .switch _ _, h => (h _ List.mem_cons_self).1.elim

theorem allSpelled_legible (hnames : names.TellApart parts) : ∀ rs : List Rule,
    (∀ r ∈ rs, r.RefersWithin parts) →
      ∀ r ∈ rs, ∀ x ∈ r.spelled, (itemScript names parts).Legible x
  | [], _ => nofun
  | r :: rs, h => by
      rw [List.forall_mem_cons] at h ⊢
      exact ⟨spelled_legible hnames r h.1, allSpelled_legible hnames rs h.2⟩

end

end Scripts

/-- The two ways to write nothing apart, the text of a normal rule tells the rule. -/
theorem text_eq_iff {names : Names} {r s : Rule} (hr : r.IsNormal) (hs : s.IsNormal)
    (hnames : names.TellApart (r.parts ++ s.parts)) :
    r.text names = s.text names ↔ r.mergeEmpty = s.mergeEmpty := by
  have hwithin := refersWithin_self hr (List.subset_append_left r.parts s.parts)
  have hwithin' := refersWithin_self hs (List.subset_append_right r.parts s.parts)
  refine ⟨fun h => ?_, fun h => ?_⟩
  · have hlegible := body_legible hnames hwithin (spelled_legible hnames r hwithin)
    exact hlegible.eq (Or.inl nofun) hwithin' (congrArg String.toList h)
  · rw [← text_mergeEmpty names r, h, text_mergeEmpty]

/-- The references among the parts are named without the character. -/
def Names.Avoid (names : Names) (parts : List Rule) (c : Char) : Prop :=
  ∀ r ∈ parts, r.isReference → c ∉ (r.text names).toList

section Characters

variable {names : Names} {parts : List Rule} {c : Char}

mutual

/-- A rule is written with punctuation and the names of its references. -/
theorem notMem_text (hc : c ∉ punctuation) (h : names.Avoid parts c) : ∀ rule : Rule,
    rule.RefersWithin parts → c ∉ (rule.text names).toList
  | .sequence [], _ => by
      simp only [punctuation, List.mem_cons, not_or] at hc
      simp [text, hc]
  | .sequence (item :: items), hrule => by
      rw [refersWithin_sequence] at hrule
      rw [toList_text]
      refine notMem_intercalate (fun hmem => hc (List.mem_of_mem_head? ?_)) ?_
      · simp [punctuation, List.mem_singleton.mp hmem]
      · simpa [spelled] using notMem_texts hc h (item :: items) hrule.2
  | .alternation choices, hrule => by
      rw [refersWithin_alternation] at hrule
      have hchoices := notMem_texts hc h choices hrule.2
      simp only [punctuation, List.mem_cons, not_or] at hc
      have hseparated : c ∉ [' ', '|', ' '].intercalate
          (choices.map fun r => (r.text names).toList) :=
        notMem_intercalate (by simp [hc]) (by simpa using hchoices)
      simpa [text, texts_eq, String.toList_intercalate, Function.comp_def, hc] using hseparated
  | .optional body, hrule => by
      have hbody := notMem_text hc h body (refersWithin_optional.mp hrule).2
      simp only [punctuation, List.mem_cons, not_or] at hc
      simp [text, hc, hbody]
  | .repetition body, hrule => by
      have hbody := notMem_text hc h body (refersWithin_repetition.mp hrule).2
      simp only [punctuation, List.mem_cons, not_or] at hc
      simp [text, hc, hbody]
  | .terminal _, hrule | .nonterminal _, hrule => h _ ((hrule _ List.mem_cons_self).2 rfl) rfl
  | .switch _ _, hrule => (hrule _ List.mem_cons_self).1.elim

theorem notMem_texts (hc : c ∉ punctuation) (h : names.Avoid parts c) : ∀ rules : List Rule,
    (∀ r ∈ rules, r.RefersWithin parts) → ∀ r ∈ rules, c ∉ (r.text names).toList
  | [], _ => nofun
  | r :: rules, hrules => by
      rw [List.forall_mem_cons] at hrules ⊢
      exact ⟨notMem_text hc h r hrules.1, notMem_texts hc h rules hrules.2⟩

end

end Characters

end Rule

namespace Grammar

/-- A grammar that a builder has put together. -/
def Built (g : Grammar) : Prop := ∃ b : Builder, b.build = .ok g

def parts (g : Grammar) : List Rule := g.rules.flatMap (·.body.parts)

variable {g h : Grammar}

theorem Built.isNormal (hg : g.Built) : ∀ d ∈ g.rules, d.body.IsNormal := by
  intro d hd
  obtain ⟨b, hb⟩ := hg
  obtain ⟨body, -, heq⟩ := Builder.body_of_build hb hd
  rw [heq]
  exact Rule.isNormal_normalize b.features body

/-- Rules are called by the lexicon and by the names of the definitions. -/
theorem names_eq (hlexicon : g.lexicon = h.lexicon)
    (hrules : g.rules.map (·.name) = h.rules.map (·.name)) : g.names = h.names := by
  have hname (id : RuleId) : g.name id = h.name id := by
    simp only [name, rule?, ← List.getElem?_map, hrules]
  rw [names, names, hlexicon, funext hname]

/-- The line of a description for a definition. -/
def line (names : Rule.Names) (d : Definition) : List Char :=
  d.name.toList ++ ':' :: ' ' :: ((d.body.text names).toList ++ [';', '\n'])

theorem toList_describe (g : Grammar) : g.describe.toList = g.rules.flatMap (line g.names) := by
  rw [describe, String.toList_join, List.flatMap_map]
  exact List.flatMap_congr fun d _ => by simp [line]

/-- The first semicolons end the bodies, where the names are known. -/
theorem lines_eq_iff {names : Rule.Names} {ds es : List Definition}
    (hnames : ds.map (·.name) = es.map (·.name))
    (hds : ∀ d ∈ ds, ';' ∉ (d.body.text names).toList)
    (hes : ∀ e ∈ es, ';' ∉ (e.body.text names).toList) :
    ds.flatMap (line names) = es.flatMap (line names) ↔
      List.Forall₂ (fun d e => d.body.text names = e.body.text names) ds es := by
  induction ds generalizing es with
  | nil => simp [List.map_eq_nil_iff.mp hnames.symm]
  | cons d ds ih =>
      obtain ⟨e, es, rfl⟩ : ∃ e es', es = e :: es' := List.exists_cons_of_ne_nil fun h => by
        simp [h] at hnames
      simp only [List.map_cons, List.cons.injEq] at hnames
      rw [List.forall_mem_cons] at hds hes
      rw [List.forall₂_cons, ← ih hnames.2 hds.2 hes.2]
      simp only [List.flatMap_cons, line, hnames.1, List.append_assoc, List.cons_append,
        List.append_cancel_left_eq, List.cons.injEq, true_and]
      refine ⟨fun heq => ?_, fun ⟨hbody, hlines⟩ => by rw [hbody]; simpa using hlines⟩
      have hread := append_inj_of_head (· ≠ ';') (fun c hc h => hds.1 (h ▸ hc))
        (fun c hc h => hes.1 (h ▸ hc)) (by simp) (by simp) heq
      exact ⟨String.toList_inj.mp hread.1, by simpa using hread.2⟩

/-- In the place of one body, two bodies are told apart. -/
theorem describe_eq_iff_of_replaced {before after : List Definition} {name : String}
    {body body' : Rule} (hg : g.Built) (hh : h.Built) (hlexicon : g.lexicon = h.lexicon)
    (hrules : g.rules = before ++ ⟨name, body⟩ :: after)
    (hrules' : h.rules = before ++ ⟨name, body'⟩ :: after)
    (hnames : g.names.TellApart (body.parts ++ body'.parts)) :
    g.describe = h.describe ↔ body.mergeEmpty = body'.mergeEmpty := by
  have hsame : g.names = h.names := names_eq hlexicon (by simp [hrules, hrules'])
  have hbody := hg.isNormal ⟨name, body⟩ (by simp [hrules])
  have hbody' := hh.isNormal ⟨name, body'⟩ (by simp [hrules'])
  rw [← Rule.text_eq_iff hbody hbody' hnames, ← String.toList_inj, ← String.toList_inj,
    toList_describe, toList_describe, hrules, hrules', ← hsame]
  simp [line]

/-- Without semicolons in names, each line of a description is found in it. -/
theorem describe_eq_iff (hg : g.Built) (hh : h.Built) (hlexicon : g.lexicon = h.lexicon)
    (hrules : g.rules.map (·.name) = h.rules.map (·.name))
    (hnames : g.names.TellApart (g.parts ++ h.parts))
    (hcolons : g.names.Avoid (g.parts ++ h.parts) ';') :
    g.describe = h.describe ↔
      List.Forall₂ (fun d e => d.body.mergeEmpty = e.body.mergeEmpty) g.rules h.rules := by
  have hparts {d : Definition} (hd : d ∈ g.rules) : d.body.parts ⊆ g.parts ++ h.parts :=
    fun r hr => by simp only [parts, List.mem_append, List.mem_flatMap]; exact .inl ⟨d, hd, hr⟩
  have hparts' {e : Definition} (he : e ∈ h.rules) : e.body.parts ⊆ g.parts ++ h.parts :=
    fun r hr => by simp only [parts, List.mem_append, List.mem_flatMap]; exact .inr ⟨e, he, hr⟩
  have hclean {d : Definition} (hd : d.body.IsNormal) (hsub : d.body.parts ⊆ g.parts ++ h.parts) :
      ';' ∉ (d.body.text g.names).toList :=
    Rule.notMem_text (by decide) hcolons d.body (Rule.refersWithin_self hd hsub)
  rw [← String.toList_inj, toList_describe, toList_describe, ← names_eq hlexicon hrules,
    lines_eq_iff hrules (fun d hd => hclean (hg.isNormal d hd) (hparts hd))
      (fun e he => hclean (hh.isNormal e he) (hparts' he)), List.forall₂_iff_zip,
    List.forall₂_iff_zip]
  refine and_congr_right fun _ => forall₂_congr fun d e => imp_congr_right fun hmem => ?_
  obtain ⟨hd, he⟩ := List.of_mem_zip hmem
  exact Rule.text_eq_iff (hg.isNormal d hd) (hh.isNormal e he)
    (hnames.mono (List.append_subset.mpr ⟨hparts hd, hparts' he⟩))

/-- Up to the two rules for nothing, normal rules are told by their texts: wherever names tell the
references apart, in the bodies of one grammar or of several, in the place of one body of a
description and, without semicolons in names, in all of them. -/
theorem texts_tell_rules :
    (∀ (names : Rule.Names) (r s : Rule), r.IsNormal → s.IsNormal →
      names.TellApart (r.parts ++ s.parts) →
      (r.text names = s.text names ↔ r.mergeEmpty = s.mergeEmpty)) ∧
    (∀ g h : Grammar, g.Built → h.Built → g.names = h.names → ∀ d ∈ g.rules, ∀ e ∈ h.rules,
      g.names.TellApart (d.body.parts ++ e.body.parts) →
      (d.body.text g.names = e.body.text h.names ↔ d.body.mergeEmpty = e.body.mergeEmpty)) ∧
    (∀ (g h : Grammar) (before after : List Definition) (name : String) (body body' : Rule),
      g.Built → h.Built → g.lexicon = h.lexicon →
      g.rules = before ++ ⟨name, body⟩ :: after → h.rules = before ++ ⟨name, body'⟩ :: after →
      g.names.TellApart (body.parts ++ body'.parts) →
      (g.describe = h.describe ↔ body.mergeEmpty = body'.mergeEmpty)) ∧
    ∀ g h : Grammar, g.Built → h.Built → g.lexicon = h.lexicon →
      g.rules.map (·.name) = h.rules.map (·.name) → g.names.TellApart (g.parts ++ h.parts) →
      g.names.Avoid (g.parts ++ h.parts) ';' →
      (g.describe = h.describe ↔
        List.Forall₂ (fun d e => d.body.mergeEmpty = e.body.mergeEmpty) g.rules h.rules) := by
  refine ⟨fun names r s => Rule.text_eq_iff, fun g h hg hh hsame d hd e he hnames => ?_,
    fun g h before after name body body' => describe_eq_iff_of_replaced,
    fun g h => describe_eq_iff⟩
  rw [← hsame]
  exact Rule.text_eq_iff (hg.isNormal d hd) (hh.isNormal e he) hnames

/-- In sequences that stand in sequences, the text does not tell which. -/
example (names : Rule.Names) :
    (Rule.sequence [.sequence [.terminal 0, .terminal 1], .terminal 2]).text names =
      (Rule.sequence [.terminal 0, .terminal 1, .terminal 2]).text names := by
  rw [← String.toList_inj]
  simp [Rule.text, Rule.texts]

example : Samples.lists.names.TellApart Samples.lists.parts := by
  decide +kernel

end Grammar
end Multipath
