import Mathlib.Logic.Relation
import Multipath.Proofs.Calls
import Multipath.Proofs.Correspondence
import Multipath.Proofs.Productions
import Multipath.Proofs.Recognition

/-!
References that stand first. A rule refers to another one on its left if nothing in front of the
reference need match anything. Only along such references can a rule be asked for again where it is
being derived; so where they lead into no cycle, no derivation ever meets itself
(`Session.no_left_recursion`). The productions of Aether refer on their left to later ones only.
-/

namespace Multipath

open Relation (TransGen)
open Search (outcome outputOf readToken)

theorem Position.Upto.antisymm {p q : Position} (h : p.Upto q) (h' : q.Upto p) : p = q := by
  obtain rfl | h := h
  · rfl
  · have := h'.index_le
    omega

namespace Grammar

section Left
variable (g : Grammar)

/-- Can match nothing. -/
inductive Nullable : Rule → Prop
  | nil : Nullable (.sequence [])
  | cons {item items} : Nullable item → Nullable (.sequence items) →
      Nullable (.sequence (item :: items))
  | optional {body} : Nullable (.optional body)
  | repetition {body} : Nullable (.repetition body)
  | choice {choice choices} : choice ∈ choices → Nullable choice → Nullable (.alternation choices)
  | nonterminal {rule definition} : g.rule? rule = some definition → Nullable definition.body →
      Nullable (.nonterminal rule)
  | enabled {feature body} : g.isEnabled feature = true → Nullable body →
      Nullable (.switch feature body)
  | disabled {feature body} : g.isEnabled feature = false → Nullable (.switch feature body)

/-- Has a reference to `r` in it, behind nothing but nullable items in each sequence around it. -/
inductive Opens (r : RuleId) : Rule → Prop
  | nonterminal : Opens r (.nonterminal r)
  | head {item items} : Opens r item → Opens r (.sequence (item :: items))
  | rest {item items} : g.Nullable item → Opens r (.sequence items) →
      Opens r (.sequence (item :: items))
  | optional {body} : Opens r body → Opens r (.optional body)
  | repetition {body} : Opens r body → Opens r (.repetition body)
  | choice {choice choices} : choice ∈ choices → Opens r choice → Opens r (.alternation choices)
  | enabled {feature body} : g.isEnabled feature = true → Opens r body →
      Opens r (.switch feature body)

/-- The body of the one rule has a reference to the other on its left. -/
def LeftRefers (r r' : RuleId) : Prop :=
  ∃ definition, g.rule? r = some definition ∧ g.Opens r' definition.body

def LeftAcyclic : Prop := ∀ r, ¬TransGen g.LeftRefers r r

end Left

variable {g : Grammar} {reads : Position → Token → Prop}
  {refers : RuleId → Position → Position → Prop} {rule : Rule} {p q : Position}

/-- Moves on, and not at all over nullable rules only. -/
def MovesOn (g : Grammar) (refers : RuleId → Position → Position → Prop) : Prop :=
  ∀ r p q, refers r p q → p.Upto q ∧ (p = q → g.Nullable (.nonterminal r))

/-- A rule leads nowhere else only if it is nullable. -/
theorem Leads.movesOn (h : g.Leads reads refers rule p q)
    (hreads : ∀ p t, reads p t → p.index < t.span.stop.index) (hrefers : g.MovesOn refers) :
    p.Upto q ∧ (p = q → g.Nullable rule) := by
  induction h with
  | terminal ht _ =>
      have := hreads _ _ ht
      exact ⟨.inr this, fun heq => absurd (congrArg Position.index heq) (Nat.ne_of_lt this)⟩
  | nonterminal hr => exact hrefers _ _ _ hr
  | nil => exact ⟨.refl _, fun _ => .nil⟩
  | cons _ _ ih ihs =>
      refine ⟨ih.1.trans ihs.1, ?_⟩
      rintro rfl
      obtain rfl := ih.1.antisymm ihs.1
      exact .cons (ih.2 rfl) (ihs.2 rfl)
  | skip => exact ⟨.refl _, fun _ => .optional⟩
  | take _ ih => exact ⟨ih.1, fun _ => .optional⟩
  | stop => exact ⟨.refl _, fun _ => .repetition⟩
  | again _ _ ih ihs => exact ⟨ih.1.trans ihs.1, fun _ => .repetition⟩
  | choice hmem _ ih => exact ⟨ih.1, fun heq => .choice hmem (ih.2 heq)⟩
  | enabled hf _ ih => exact ⟨ih.1, fun heq => .enabled hf (ih.2 heq)⟩
  | disabled hf => exact ⟨.refl _, fun _ => .disabled hf⟩

/-- What a rule asks for where it starts stands on its left. -/
theorem Asks.opens {x : Question} (h : g.Asks reads refers rule p x)
    (hreads : ∀ p t, reads p t → p.index < t.span.stop.index) (hrefers : g.MovesOn refers) :
    p.Upto x.position ∧ ∀ r, x = .reference r p → g.Opens r rule := by
  induction h with
  | terminal => exact ⟨.refl _, by simp⟩
  | nonterminal => exact ⟨.refl _, fun r heq => by cases heq; exact .nonterminal⟩
  | head _ ih => exact ⟨ih.1, fun r heq => .head (ih.2 r heq)⟩
  | rest hleads _ ih =>
      obtain ⟨hupto, hnullable⟩ := hleads.movesOn hreads hrefers
      refine ⟨hupto.trans ih.1, ?_⟩
      rintro r rfl
      obtain rfl := hupto.antisymm ih.1
      exact .rest (hnullable rfl) (ih.2 r rfl)
  | optional _ ih => exact ⟨ih.1, fun r heq => .optional (ih.2 r heq)⟩
  | iteration hleads _ ih =>
      obtain ⟨hupto, -⟩ := hleads.movesOn hreads hrefers
      refine ⟨hupto.trans ih.1, ?_⟩
      rintro r rfl
      obtain rfl := hupto.antisymm ih.1
      exact .repetition (ih.2 r rfl)
  | choice hmem _ ih => exact ⟨ih.1, fun r heq => .choice hmem (ih.2 r heq)⟩
  | enabled hf _ ih => exact ⟨ih.1, fun r heq => .enabled hf (ih.2 r heq)⟩

end Grammar

namespace Run

variable {s : Session} {c : Scope s.source} {run : Run}

/-- Nodes move on: by induction on the order in which they were completed. -/
theorem Valid.settled_movesOn (hv : run.Valid s c) (n : Nat) :
    s.grammar.MovesOn (run.Settled n) := by
  induction n using Nat.strongRecOn with
  | ind n ih =>
      intro r p q h
      obtain ⟨id, hid, hm, hq⟩ := h
      obtain ⟨out, hd, -⟩ := hv.settled p r id hm
      obtain ⟨definition, hdef, hleads⟩ := hv.backed id r p out hd
      rw [Arena.output_of_derived hd] at hq
      obtain ⟨hupto, hnullable⟩ := (hleads q hq).movesOn (fun _ _ ht => (hv.reads_index_lt ht).1)
        (ih id hid)
      exact ⟨hupto, fun heq => .nonterminal hdef (hnullable heq)⟩

/-- No rule has met itself, and only the rules named are being derived. -/
structure Straight (s : Session) (under : Reference → Prop) (run : Run) : Prop where
  valid : run.Valid s (.everywhere s.source)
  hits : run.stats.leftRecursionHits = 0
  inProgress : ∀ p rule, run.memo.find? p rule = some .inProgress → under ⟨p, rule⟩

namespace Straight

variable {under : Reference → Prop} {run' : Run} {rule : RuleId} {p : Position}

theorem fresh (s : Session) : Straight s under {} :=
  ⟨valid_empty, rfl, fun p rule h => by simp [Memo.find?] at h⟩

theorem onlyReads (h : run.Straight s under) (honly : run.OnlyReads run')
    (hv : run'.Valid s (.everywhere s.source)) : run'.Straight s under :=
  ⟨hv, by rw [honly.stats, h.hits], by rw [honly.memo]; exact h.inProgress⟩

theorem countMemoHit (h : run.Straight s under) : run.countMemoHit.Straight s under :=
  ⟨h.valid.countMemoHit, h.hits, h.inProgress⟩

theorem enter (h : run.Straight s under)
    (hv : (run.enter rule p).Valid s (.everywhere s.source)) :
    (run.enter rule p).Straight s fun y => y = ⟨p, rule⟩ ∨ under y := by
  refine ⟨hv, h.hits, fun q r hm => ?_⟩
  rw [(run.enter_records rule p).find?] at hm
  split at hm
  · next heq => exact .inl (by rw [heq.1, heq.2])
  · exact .inr (h.inProgress q r hm)

/-- The innermost derivation ends. -/
theorem close (h : run.Straight s fun y => y = ⟨p, rule⟩ ∨ under y) {finding : Finding}
    (hrec : run.Records run' p rule finding) (hv : run'.Valid s (.everywhere s.source))
    (hsettled : finding ≠ .inProgress) : run'.Straight s under := by
  refine ⟨hv, hrec.hits.trans h.hits, fun q r hm => ?_⟩
  rw [hrec.find?] at hm
  split at hm
  · exact absurd (Option.some.inj hm) hsettled
  · next hne =>
      refine (h.inProgress q r hm).resolve_left fun heq => hne ?_
      cases heq
      exact ⟨rfl, rfl⟩

theorem readToken (h : run.Straight s under) (p : Position) :
    Ensures (readToken s.source p) run fun result run' => run'.Straight s under ∧
      ∀ t, result = .ok (.ok t) → p.index < t.span.stop.index := by
  refine (readToken_spec h.valid (.inl trivial)).mono fun result run' hpost => ?_
  obtain ⟨hv', honly, r, rfl, hread⟩ := hpost
  refine ⟨h.onlyReads honly hv', fun t ht => ?_⟩
  cases ht
  exact (hv'.reads_index_lt hread).1

theorem noteFailure (h : run.Straight s under) (p : Position) :
    (run.noteFailure p).Straight s under :=
  h.onlyReads (.noteFailure run p) (h.valid.noteFailure p)

end Straight
end Run

/-- On the way from `y` to `x` there are tokens, or references on the left only. -/
def Grammar.Above (g : Grammar) (y x : Reference) : Prop :=
  y.position.Upto x.position ∧
    (y.position = x.position → TransGen g.LeftRefers y.rule x.rule)

theorem Grammar.Above.tail {g : Grammar} {y x z : Reference} (h : y = x ∨ g.Above y x)
    (hupto : x.position.Upto z.position)
    (hleft : x.position = z.position → g.LeftRefers x.rule z.rule) : g.Above y z := by
  obtain rfl | ⟨hyx, htrans⟩ := h
  · exact ⟨hupto, fun heq => .single (hleft heq)⟩
  · refine ⟨hyx.trans hupto, fun heq => ?_⟩
    have hsame : y.position = x.position := hyx.antisymm (heq ▸ hupto)
    exact (htrans hsame).tail (hleft (hsame ▸ heq))

namespace Session

variable {s : Session} {run : Run}

section Derivation
variable {under : Reference → Prop} {rule : RuleId} {p : Position} {depth : Nat}

/-- What a body keeps while it is evaluated, if references do. -/
def upkeep (resolve : Resolver) (under : Reference → Prop) (rule : RuleId) (p : Position)
    (hanswer : ∀ r m run, p.Upto m → (p = m → s.grammar.LeftRefers rule r) →
      run.Straight s under → Ensures (resolve r m) run fun result run' => run'.Straight s under ∧
        ∀ out, result = .ok out → ∀ q ∈ out, m.Upto q ∧
          (m = q → s.grammar.Nullable (.nonterminal r))) : Upkeep s resolve where
  inv := Run.Straight s under
  place _ := True
  reads p t := p.index < t.span.stop.index
  refers r p q := p.Upto q ∧ (p = q → s.grammar.Nullable (.nonterminal r))
  asked
    | .token _ => True
    | .reference r m => p.Upto m ∧ (p = m → s.grammar.LeftRefers rule r)
  note p h := h.noteFailure p
  read _ _ h := (h.readToken _).mono fun _ _ hpost =>
    ⟨hpost.1, fun t ht => ⟨hpost.2 t ht, trivial⟩⟩
  answer hasked _ h := (hanswer _ _ _ hasked.1 hasked.2 h).mono fun _ _ hpost =>
    ⟨hpost.1, fun out hout q hq => ⟨trivial, hpost.2 out hout q hq⟩⟩

theorem outputOf_straight {r : RuleId} {m : Position} (h : run.Straight s under)
    (hderive : Ensures (s.deriveWithin depth r m) run fun _ run' => run'.Straight s under) :
    Ensures (s.deriveWithin depth r m >>= outputOf) run fun result run' =>
      run'.Straight s under ∧ ∀ out, result = .ok out → ∀ q ∈ out, m.Upto q ∧
        (m = q → s.grammar.Nullable (.nonterminal r)) := by
  have hsound := deriveWithin_sound depth r m run h.valid (.inl trivial)
  refine ensures_bind.mpr ((hderive.and hsound).mono fun result run' hpost => ?_)
  obtain ⟨hstraight, hv', -, hfound⟩ := hpost
  cases result with
  | error f => exact ⟨hstraight, nofun⟩
  | ok id =>
      refine Search.ensures_outputOf.mpr ⟨hstraight, fun out hout q hq => ?_⟩
      cases hout
      exact hv'.settled_movesOn _ r m q (hv'.known (hfound id rfl) hq)

theorem deriveFresh_straight
    (hres : ∀ r m under run, (∀ y, under y → s.grammar.Above y ⟨m, r⟩) → run.Straight s under →
      Ensures (s.deriveWithin depth r m) run fun _ run' => run'.Straight s under)
    (hunder : ∀ y, under y → s.grammar.Above y ⟨p, rule⟩) (h : run.Straight s under)
    (hnone : run.memo.find? p rule = none) :
    Ensures (s.deriveFresh (fun r q => s.deriveWithin depth r q >>= outputOf) rule p) run
      fun _ run' => run'.Straight s under := by
  suffices hmore : Ensures (s.deriveFresh (fun r q => s.deriveWithin depth r q >>= outputOf) rule p)
      run fun _ run' => run'.Valid s (.everywhere s.source) → run'.Straight s under by
    refine Ensures.mono ((deriveFresh_sound (resolver_sound depth) rule p run h.valid
      (.inl trivial) hnone).and hmore) ?_
    exact fun result run' hpost => hpost.2 hpost.1.1
  refine ensures_deriveFresh.mpr ?_
  split
  · exact fun _ => h
  · next definition hdef =>
      have hv₁ := (run.enter_records rule p).valid h.valid trivial (by simp [hnone]) rfl (by simp)
      let u := upkeep (fun r q => s.deriveWithin depth r q >>= outputOf)
        (fun y => y = ⟨p, rule⟩ ∨ under y) rule p fun r m run hupto hleft h =>
          outputOf_straight h (hres r m _ run
            (fun y hy => .tail (hy.imp_right (hunder y)) hupto hleft) h)
      have hadmits : ∀ x, s.grammar.Asks u.reads u.refers definition.body p x → u.asked x := by
        intro x hx
        obtain ⟨hupto, hopens⟩ := hx.opens (fun _ _ ht => ht) fun _ _ _ hr => hr
        cases x with
        | token q => trivial
        | reference r q =>
            exact ⟨hupto, fun heq => ⟨definition, hdef, hopens r (by rw [heq])⟩⟩
      refine (u.evaluateAt definition.body trivial hadmits (h.enter hv₁)).mono ?_
      intro result run₂ hpost
      obtain ⟨h₂, -⟩ := hpost
      cases result with
      | error f => exact fun hv' => h₂.close (run₂.fail_records rule p f) hv' (by simp)
      | ok out => exact fun hv' => h₂.close (run₂.succeed_records rule p out) hv' (by simp)

/-- A rule that is being derived is not asked for again. -/
theorem consult_straight (hacyclic : s.grammar.LeftAcyclic)
    (hunder : ∀ y, under y → s.grammar.Above y ⟨p, rule⟩) (h : run.Straight s under)
    {fresh : Search NodeId} (hfresh : run.memo.find? p rule = none →
      Ensures fresh run fun _ run' => run'.Straight s under) :
    Ensures (consult rule p fresh) run fun _ run' => run'.Straight s under := by
  refine ensures_consult.mpr ?_
  split
  · exact h.countMemoHit
  · exact h.countMemoHit
  · next hm =>
      obtain ⟨-, hcycle⟩ := hunder _ (h.inProgress p rule hm)
      exact absurd (hcycle rfl) (hacyclic rule)
  · next hnone => exact hfresh hnone

theorem deriveWithin_straight (hacyclic : s.grammar.LeftAcyclic) (depth : Nat) (rule : RuleId)
    (p : Position) (under : Reference → Prop) (run : Run)
    (hunder : ∀ y, under y → s.grammar.Above y ⟨p, rule⟩) (h : run.Straight s under) :
    Ensures (s.deriveWithin depth rule p) run fun _ run' => run'.Straight s under := by
  induction depth generalizing rule p under run with
  | zero => exact consult_straight hacyclic hunder h fun _ => ensures_throw.mpr h
  | succ depth ih =>
      exact consult_straight hacyclic hunder h fun hnone =>
        deriveFresh_straight (fun r m under run => ih r m under run) hunder h hnone

end Derivation

section Calls

/-- Without paths to start from nothing is asked. -/
theorem evaluate_nothing (resolve : Resolver) (rule : Rule) {inv : Run → Prop}
    (hnote : ∀ run p, inv run → inv (run.noteFailure p)) (hinv : inv run) :
    Ensures (s.evaluate resolve rule ∅) run fun _ run' => inv run' := by
  let i : Inquiry s resolve := {
    reads := fun _ _ => True
    refers := fun _ _ _ => True
    asked := fun _ => False
    inv
    fails := fun f => f.isAbsorbable = true
    noPath := fun _ _ => rfl
    noteFailure := fun p => hnote _ p
    read := False.elim
    answer := False.elim }
  refine Ensures.mono (i.evaluate rule ∅ run (by simp) hinv) fun result run' hpost => ?_
  cases result with
  | ok out => exact hpost.1
  | error f => exact hpost.2 hpost.1

theorem follow_straight (hacyclic : s.grammar.LeftAcyclic) (rule : Rule) (input : PathSet)
    (h : run.Straight s fun _ => False) :
    Ensures (s.follow rule input) run fun _ run' => run'.Straight s fun _ => False := by
  refine ensures_follow.mpr ?_
  by_cases hne : input = ∅
  · rw [hne]
    exact evaluate_nothing _ rule (fun _ p h => h.noteFailure p) h
  · let depth := s.maxDepth - run.frames.length
    let u : Upkeep s fun r q => s.deriveWithin depth r q >>= outputOf := {
      inv := Run.Straight s fun _ => False
      place := fun _ => True
      reads := fun _ _ => True
      refers := fun _ _ _ => True
      asked := fun _ => True
      note := fun p h => h.noteFailure p
      read := fun _ _ h => (h.readToken _).mono fun _ _ hpost =>
        ⟨hpost.1, fun _ _ => ⟨trivial, trivial⟩⟩
      answer := fun _ _ h => (outputOf_straight h (deriveWithin_straight hacyclic _ _ _ _ _
        (fun _ => False.elim) h)).mono fun _ _ hpost =>
          ⟨hpost.1, fun _ _ _ _ => ⟨trivial, trivial⟩⟩ }
    exact (u.evaluate rule hne (fun _ _ => trivial) (fun _ _ _ _ => trivial) h).mono
      fun _ _ hpost => hpost.1

theorem derive_straight (hacyclic : s.grammar.LeftAcyclic) (rule : RuleId) (p : Position)
    (h : run.Straight s fun _ => False) :
    Ensures (s.derive rule p) run fun _ run' => run'.Straight s fun _ => False :=
  ensures_derive.mpr (deriveWithin_straight hacyclic _ rule p _ run (fun _ => False.elim) h)

theorem Calls.straight (hacyclic : s.grammar.LeftAcyclic) {run' : Run} (hcalls : s.Calls run run')
    (h : run.Straight s fun _ => False) : run'.Straight s fun _ => False := by
  induction hcalls with
  | none => exact h
  | follow _ hrun ih => exact (follow_straight hacyclic _ _ ih).of_run hrun
  | derive _ hrun ih => exact (derive_straight hacyclic _ _ ih).of_run hrun
  | read _ hrun ih => exact ((ih.readToken _).of_run hrun).1

end Calls
end Session

theorem Extraction.Reached.straight {s : Session} {allowed : Position → Prop} {e : Extraction}
    (hacyclic : s.grammar.LeftAcyclic) (h : e.Reached s allowed) :
    e.run.Straight s fun _ => False := by
  induction h with
  | fresh => exact .fresh s
  | evaluate _ _ hrun ih => exact (Session.follow_straight hacyclic _ _ ih).of_run hrun
  | derive _ _ hrun ih => exact (Session.derive_straight hacyclic _ _ ih).of_run hrun
  | read _ _ hrun ih => exact ((ih.readToken _).of_run hrun).1
  | narrow _ hid hq ih => exact ⟨ih.valid.narrow hid hq, ih.hits, ih.inProgress⟩
  | branch _ _ hrun ih =>
      exact ((Session.branch_calls _ _ _ _).of_run hrun).straight hacyclic ih
  | renew _ ih => exact ih

section Check

namespace Rule

mutual

/-- Whether a rule may match nothing, given the rules that may; switches are taken to. -/
def mayVanish (vanishing : RuleId → Bool) : Rule → Bool
  | .sequence items => allMayVanish vanishing items
  | .optional _ | .repetition _ | .switch _ _ => true
  | .alternation choices => someMayVanish vanishing choices
  | .terminal _ => false
  | .nonterminal rule => vanishing rule

def allMayVanish (vanishing : RuleId → Bool) : List Rule → Bool
  | [] => true
  | item :: items => mayVanish vanishing item && allMayVanish vanishing items

def someMayVanish (vanishing : RuleId → Bool) : List Rule → Bool
  | [] => false
  | choice :: choices => mayVanish vanishing choice || someMayVanish vanishing choices

end

mutual

/-- The references in a rule that may stand on its left. -/
def leading (vanishing : RuleId → Bool) : Rule → List RuleId
  | .sequence items => leadingItems vanishing items
  | .optional body | .repetition body | .switch _ body => leading vanishing body
  | .alternation choices => leadingChoices vanishing choices
  | .terminal _ => []
  | .nonterminal rule => [rule]

def leadingItems (vanishing : RuleId → Bool) : List Rule → List RuleId
  | [] => []
  | item :: items => leading vanishing item ++
      if mayVanish vanishing item then leadingItems vanishing items else []

def leadingChoices (vanishing : RuleId → Bool) : List Rule → List RuleId
  | [] => []
  | choice :: choices => leading vanishing choice ++ leadingChoices vanishing choices

end

variable {vanishing : RuleId → Bool} {choice : Rule} {choices : List Rule} {r : RuleId}

theorem someMayVanish_of_mem (h : choice ∈ choices) (hchoice : choice.mayVanish vanishing = true) :
    someMayVanish vanishing choices = true := by
  induction choices with
  | nil => cases h
  | cons x xs ih =>
      rw [someMayVanish, Bool.or_eq_true]
      obtain rfl | h := List.mem_cons.mp h
      · exact .inl hchoice
      · exact .inr (ih h)

theorem mem_leadingChoices (h : choice ∈ choices) (hr : r ∈ choice.leading vanishing) :
    r ∈ leadingChoices vanishing choices := by
  induction choices with
  | nil => cases h
  | cons x xs ih =>
      rw [leadingChoices, List.mem_append]
      obtain rfl | h := List.mem_cons.mp h
      · exact .inl hr
      · exact .inr (ih h)

end Rule

namespace Grammar

variable {g : Grammar} {vanishing : RuleId → Bool}

/-- Rules with bodies that may vanish are among those that are taken to. -/
def Covers (g : Grammar) (vanishing : RuleId → Bool) : Prop :=
  ∀ id definition, g.rule? id = some definition →
    definition.body.mayVanish vanishing = true → vanishing id = true

theorem Nullable.mayVanish {rule : Rule} (h : g.Nullable rule) (hcovers : g.Covers vanishing) :
    rule.mayVanish vanishing = true := by
  induction h with
  | nil => simp [Rule.mayVanish, Rule.allMayVanish]
  | cons _ _ ih ihs =>
      simp only [Rule.mayVanish] at ihs
      simp [Rule.mayVanish, Rule.allMayVanish, ih, ihs]
  | optional | repetition | enabled | disabled => rw [Rule.mayVanish]
  | choice hmem _ ih =>
      rw [Rule.mayVanish]
      exact Rule.someMayVanish_of_mem hmem ih
  | nonterminal hdef _ ih =>
      rw [Rule.mayVanish]
      exact hcovers _ _ hdef ih

theorem Opens.mem_leading {r : RuleId} {rule : Rule} (h : g.Opens r rule)
    (hcovers : g.Covers vanishing) : r ∈ rule.leading vanishing := by
  induction h with
  | nonterminal => simp [Rule.leading]
  | head _ ih =>
      rw [Rule.leading, Rule.leadingItems]
      exact List.mem_append_left _ ih
  | rest hitem _ ih =>
      rw [Rule.leading] at ih
      rw [Rule.leading, Rule.leadingItems, if_pos (hitem.mayVanish hcovers)]
      exact List.mem_append_right _ ih
  | optional _ ih | repetition _ ih | enabled _ _ ih =>
      rw [Rule.leading]
      exact ih
  | choice hmem _ ih =>
      rw [Rule.leading]
      exact Rule.mem_leadingChoices hmem ih

/-- The check: references on the left lead up in some ranking. -/
theorem leftAcyclic_of_ranked (vanishing : RuleId → Bool) (hcovers : g.Covers vanishing)
    (rank : RuleId → Nat)
    (h : ∀ id definition, g.rule? id = some definition →
      ∀ r ∈ definition.body.leading vanishing, rank id < rank r) : g.LeftAcyclic := by
  have hstep {r r' : RuleId} (hr : g.LeftRefers r r') : rank r < rank r' := by
    obtain ⟨definition, hdef, hopens⟩ := hr
    exact h r definition hdef r' (hopens.mem_leading hcovers)
  have hrank {r r' : RuleId} (hr : TransGen g.LeftRefers r r') : rank r < rank r' := by
    induction hr with
    | single hr => exact hstep hr
    | tail _ hr ih => exact Nat.lt_trans ih (hstep hr)
  exact fun r hr => Nat.lt_irrefl _ (hrank hr)

end Grammar

namespace Aether

/-- Every production begins with a token or with a reference to a later one, and so its body
matches something. -/
theorem Production.leading_built (features : Features) (p : Production) :
    (p.built features).mayVanish (fun _ => false) = false ∧
      ∀ r ∈ (p.built features).leading fun _ => false, p.id < r := by
  by_cases hp : p = .header
  · subst hp
    by_cases hprecedences : Aether.precedences ∈ features
    · rw [built_header_of_mem hprecedences]
      decide
    · rw [built_header_of_not_mem hprecedences]
      decide
  · rw [built_eq hp]
    revert hp
    cases p <;> decide

theorem leftAcyclic_builtOn (lexicon : Lexicon) (features : Features) :
    (builtOn lexicon features).LeftAcyclic := by
  refine Grammar.leftAcyclic_of_ranked (fun _ => false) ?_ id ?_
  · intro id definition hdef hvanish
    obtain ⟨p, rfl, rfl⟩ := production_of_rule? hdef
    rw [(p.leading_built features).1] at hvanish
    cases hvanish
  · intro id definition hdef
    obtain ⟨p, rfl, rfl⟩ := production_of_rule? hdef
    exact (p.leading_built features).2

end Aether
end Check

/-- No rule ever meets itself: not in whatever is derived, evaluated and extracted, one after the
other, and not in a parse. -/
def Session.NeverMeets (s : Session) : Prop :=
  (∀ allowed e, Extraction.Reached s allowed e → e.run.stats.leftRecursionHits = 0) ∧
    ∀ trailing start r, s.parse trailing start = .ok r → r.stats.leftRecursionHits = 0

/-- Where references on the left lead into no cycle, no rule meets itself, whatever the text, the
conditions and the bound on nesting. The grammar of Aether is such a one for all features. -/
theorem Session.no_left_recursion :
    (∀ s : Session, s.grammar.LeftAcyclic → s.NeverMeets) ∧
      ∀ features, ∃ g, Aether.grammar features = .ok g ∧ g.LeftAcyclic ∧
        ∀ s : Session, s.grammar = g → s.NeverMeets := by
  have hmain (s : Session) (hacyclic : s.grammar.LeftAcyclic) : s.NeverMeets := by
    refine ⟨fun allowed e h => (h.straight hacyclic).hits, fun trailing start r hparse => ?_⟩
    obtain ⟨e, hreached, hstats⟩ := reached_of_parse (fun _ => True) trivial hparse
    rw [hstats]
    exact (hreached.straight hacyclic).hits
  refine ⟨hmain, fun features => ?_⟩
  obtain ⟨lexicon, hlexicon⟩ := Aether.exists_lexicon
  have hacyclic := Aether.leftAcyclic_builtOn lexicon features
  exact ⟨_, Aether.grammar_eq hlexicon features, hacyclic, fun s hs => hmain s (hs ▸ hacyclic)⟩

/-- Lists begin with an item, and an item with a token. -/
theorem Samples.leftAcyclic_lists : lists.LeftAcyclic := by
  have hrules : ∀ definition ∈ lists.rules.zipIdx, definition.1.body.mayVanish (fun _ => false) =
      false ∧ ∀ r ∈ definition.1.body.leading fun _ => false, definition.2 < r := by decide
  have hrule (id : RuleId) (definition : Grammar.Definition)
      (hdef : lists.rule? id = some definition) := hrules (definition, id)
    (List.mem_zipIdx_iff_getElem?.mpr hdef)
  refine Grammar.leftAcyclic_of_ranked (fun _ => false) ?_ id fun id definition hdef =>
    (hrule id definition hdef).2
  intro id definition hdef hvanish
  rw [(hrule id definition hdef).1] at hvanish
  cases hvanish

/-- A parse of two items, and all texts in the language of Aether. -/
theorem Session.no_left_recursion_lists :
    (∃ r, (Samples.listSession "a,a").parse true .start = .ok r ∧ r.stats.leftRecursionHits = 0) ∧
      ∃ g, Aether.grammar ∅ = .ok g ∧
        ∀ conditions text, (ofText g conditions text none 64).NeverMeets := by
  obtain ⟨run, hderive, -, hwinner, -, hsome⟩ := listSession_derived true
  obtain ⟨r, hparse⟩ := parse_of_branch rfl hderive hwinner hsome
  obtain ⟨g, hg, -, hmeets⟩ := no_left_recursion.2 ∅
  exact ⟨⟨r, hparse, (no_left_recursion.1 _ Samples.leftAcyclic_lists).2 true .start r hparse⟩,
    g, hg, fun conditions text => hmeets (ofText g conditions text none 64) rfl⟩

end Multipath
