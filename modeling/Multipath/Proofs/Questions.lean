import Multipath.Proofs.Soundness

/-!
The questions that a rule asks from a position: which token there is, and where a reference to a
rule leads. Which questions are asked depends on the answers to earlier ones, and on nothing else;
so where two sources of answers agree on all questions asked, a rule leads to the same positions and
asks the same questions. What every answer keeps, an evaluation keeps (`Inquiry.evaluate`), and it
is held to the questions that its rule asks.
-/

namespace Multipath

open Search (attempt noPath readToken)

inductive Question where
  | token (p : Position)
  | reference (rule : RuleId) (p : Position)

def Question.position : Question → Position
  | .token p | .reference _ p => p

/-- What a rule asks from a position, `reads` and `refers` being the answers. -/
inductive Grammar.Asks (g : Grammar) (reads : Position → Token → Prop)
    (refers : RuleId → Position → Position → Prop) : Rule → Position → Question → Prop
  | terminal {tag p} : Asks g reads refers (.terminal tag) p (.token p)
  | nonterminal {rule p} : Asks g reads refers (.nonterminal rule) p (.reference rule p)
  | head {item items p x} : Asks g reads refers item p x →
      Asks g reads refers (.sequence (item :: items)) p x
  | rest {item items p m x} : g.Leads reads refers item p m →
      Asks g reads refers (.sequence items) m x →
      Asks g reads refers (.sequence (item :: items)) p x
  | optional {body p x} : Asks g reads refers body p x → Asks g reads refers (.optional body) p x
  | iteration {body p m x} : g.Leads reads refers (.repetition body) p m →
      Asks g reads refers body m x → Asks g reads refers (.repetition body) p x
  | choice {choice choices p x} : choice ∈ choices → Asks g reads refers choice p x →
      Asks g reads refers (.alternation choices) p x
  | enabled {feature body p x} : g.isEnabled feature = true → Asks g reads refers body p x →
      Asks g reads refers (.switch feature body) p x

namespace Grammar

variable {g : Grammar} {reads reads' : Position → Token → Prop}
  {refers refers' : RuleId → Position → Position → Prop} {rule body : Rule} {p q m : Position}
  {x : Question}

theorem Leads.repetition_trans (h : g.Leads reads refers (.repetition body) p m)
    (h' : g.Leads reads refers (.repetition body) m q) :
    g.Leads reads refers (.repetition body) p q := by
  generalize hrule : Rule.repetition body = rule at h
  induction h with
  | stop =>
      cases hrule
      exact h'
  | again hbody _ _ ih =>
      cases hrule
      exact .again hbody (ih h' rfl)
  | _ => cases hrule

theorem Asks.again (h : g.Leads reads refers (.repetition body) p m)
    (hasks : g.Asks reads refers (.repetition body) m x) :
    g.Asks reads refers (.repetition body) p x := by
  cases hasks with
  | iteration hleads hbody => exact .iteration (h.repetition_trans hleads) hbody

/-- `reads'` and `refers'` answer no question that the rule asks under `reads` and `refers` with
more than these do. -/
structure Confines (g : Grammar) (reads reads' : Position → Token → Prop)
    (refers refers' : RuleId → Position → Position → Prop) (rule : Rule) (p : Position) :
    Prop where
  token : ∀ m t, g.Asks reads refers rule p (.token m) → reads' m t → reads m t
  reference : ∀ r m q, g.Asks reads refers rule p (.reference r m) → refers' r m q → refers r m q

theorem Confines.mono {rule' : Rule} {p' : Position}
    (h : g.Confines reads reads' refers refers' rule p)
    (hasks : ∀ x, g.Asks reads refers rule' p' x → g.Asks reads refers rule p x) :
    g.Confines reads reads' refers refers' rule' p' :=
  ⟨fun m t hx => h.token m t (hasks _ hx), fun r m q hx => h.reference r m q (hasks _ hx)⟩

/-- Where a rule leads is up to the answers to its questions. -/
theorem Leads.confined (h : g.Leads reads' refers' rule p q)
    (hc : g.Confines reads reads' refers refers' rule p) : g.Leads reads refers rule p q := by
  induction h with
  | terminal ht htag => exact .terminal (hc.token _ _ .terminal ht) htag
  | nonterminal hr => exact .nonterminal (hc.reference _ _ _ .nonterminal hr)
  | nil => exact .nil
  | cons _ _ ih ihs =>
      have hitem := ih (hc.mono fun _ => .head)
      exact .cons hitem (ihs (hc.mono fun _ => .rest hitem))
  | skip => exact .skip
  | take _ ih => exact .take (ih (hc.mono fun _ => .optional))
  | stop => exact .stop
  | again _ _ ih ihs =>
      have hbody := ih (hc.mono fun _ => .iteration .stop)
      exact .again hbody (ihs (hc.mono fun _ => .again (.again hbody .stop)))
  | choice hmem _ ih => exact .choice hmem (ih (hc.mono fun _ => .choice hmem))
  | enabled hf _ ih => exact .enabled hf (ih (hc.mono fun _ => .enabled hf))
  | disabled hf => exact .disabled hf

/-- What a rule asks next is up to the answers to its questions so far. -/
theorem Asks.confined (h : g.Asks reads' refers' rule p x)
    (hc : g.Confines reads reads' refers refers' rule p) : g.Asks reads refers rule p x := by
  induction h with
  | terminal => exact .terminal
  | nonterminal => exact .nonterminal
  | head _ ih => exact .head (ih (hc.mono fun _ => .head))
  | rest hleads _ ih =>
      have hitem := hleads.confined (hc.mono fun _ => .head)
      exact .rest hitem (ih (hc.mono fun _ => .rest hitem))
  | optional _ ih => exact .optional (ih (hc.mono fun _ => .optional))
  | iteration hleads _ ih =>
      have hrep := hleads.confined hc
      exact .iteration hrep (ih (hc.mono fun _ => .iteration hrep))
  | choice hmem _ ih => exact .choice hmem (ih (hc.mono fun _ => .choice hmem))
  | enabled hf _ ih => exact .enabled hf (ih (hc.mono fun _ => .enabled hf))

/-- Questions are asked at positions with a property that tokens and references pass on. -/
theorem Asks.carries (h : g.Asks reads refers rule p x) (carried : Position → Prop)
    (hp : carried p) (hreads : ∀ p t, reads p t → carried p → carried t.span.stop)
    (hrefers : ∀ rule p q, refers rule p q → carried p → carried q) :
    carried x.position := by
  induction h with
  | terminal | nonterminal => exact hp
  | head _ ih | optional _ ih | choice _ _ ih | enabled _ _ ih => exact ih hp
  | rest hleads _ ih | iteration hleads _ ih => exact ih (hleads.carries carried hp hreads hrefers)

end Grammar

/-- What is required of a result, and of the run unless the search was cut off. -/
def UnlessCut {α : Type} (inv : Run → Prop) (fails : Failure → Prop) (post : α → Prop)
    (result : Except Failure α) (run : Run) : Prop :=
  match result with
  | .ok a => inv run ∧ post a
  | .error f => fails f ∧ (f.isAbsorbable = true → inv run)

/-- Answers for a resolver, given while a run keeps `inv`, to the questions that may be asked. -/
structure Inquiry (s : Session) (resolve : Resolver) where
  reads : Position → Token → Prop
  refers : RuleId → Position → Position → Prop
  asked : Question → Prop
  inv : Run → Prop
  /-- What an evaluation may fail with. -/
  fails : Failure → Prop
  noPath : ∀ rule p, fails (.noPath rule p)
  noteFailure : ∀ {run : Run} (p : Position), inv run → inv (run.noteFailure p)
  read : ∀ {p : Position} {run : Run}, asked (.token p) → inv run →
    Ensures (readToken s.source p) run fun result run' =>
      inv run' ∧ ∃ r, result = .ok r ∧ ∀ t, r = .ok t → reads p t
  answer : ∀ {rule : RuleId} {p : Position} {run : Run}, asked (.reference rule p) → inv run →
    Ensures (resolve rule p) run (UnlessCut inv fails fun out => ∀ q ∈ out, refers rule p q)

namespace Inquiry

variable {s : Session} {resolve : Resolver} {i : Inquiry s resolve} {run : Run} {α β : Type}

/-- Where a rule leads by the answers. -/
abbrev Leads (i : Inquiry s resolve) : Rule → Position → Position → Prop :=
  s.grammar.Leads i.reads i.refers

/-- Every question that the rule asks from the position may be asked. -/
def Admits (i : Inquiry s resolve) (rule : Rule) (p : Position) : Prop :=
  ∀ x, s.grammar.Asks i.reads i.refers rule p x → i.asked x

/-- The search keeps the run as it should be, unless it is cut off, and what it finds satisfies
`post`. -/
def Finds (i : Inquiry s resolve) (x : Search α) (run : Run) (post : α → Prop) : Prop :=
  Ensures x run (UnlessCut i.inv i.fails post)

namespace Finds

theorem pure {a : α} {post : α → Prop} (hinv : i.inv run) (ha : post a) :
    i.Finds (Pure.pure a) run post := ensures_pure.mpr ⟨hinv, ha⟩

theorem throw {f : Failure} {post : α → Prop} (hinv : i.inv run) (hf : i.fails f) :
    i.Finds (MonadExcept.throw f) run post := ensures_throw.mpr ⟨hf, fun _ => hinv⟩

theorem noPath {post : α → Prop} (hinv : i.inv run) (input : PathSet) :
    i.Finds (Search.noPath input) run post :=
  Search.ensures_noPath.mpr ⟨i.noPath _ _, fun _ => hinv⟩

theorem mono {x : Search α} {post post' : α → Prop} (h : i.Finds x run post)
    (himp : ∀ a, post a → post' a) : i.Finds x run post' := by
  refine Ensures.mono h fun result run' hpost => ?_
  cases result with
  | ok a => exact ⟨hpost.1, himp a hpost.2⟩
  | error f => exact hpost

theorem bind {x : Search α} {f : α → Search β} {middle : α → Prop} {post : β → Prop}
    (h : i.Finds x run middle)
    (hf : ∀ a run', i.inv run' → middle a → i.Finds (f a) run' post) :
    i.Finds (x >>= f) run post := by
  refine ensures_bind.mpr (Ensures.mono h fun result run' hpost => ?_)
  cases result with
  | ok a => exact hf a run' hpost.1 hpost.2
  | error f => exact hpost

theorem attempt {x : Search α} {post : α → Prop} (h : i.Finds x run post) :
    i.Finds (attempt x) run fun result =>
      match result with
      | .ok a => post a
      | .error f => i.fails f := by
  refine Search.ensures_attempt.mpr (Ensures.mono h fun result run' hpost => ?_)
  cases result with
  | ok a => exact hpost
  | error f =>
      dsimp only
      split
      · next hf => exact ⟨hpost.2 hf, hpost.1⟩
      · exact hpost

end Finds

theorem Finds.readToken {p : Position} (hp : i.asked (.token p)) (hinv : i.inv run) :
    i.Finds (readToken s.source p) run fun r => ∀ t, r = .ok t → i.reads p t := by
  refine Ensures.mono (i.read hp hinv) fun result run' hpost => ?_
  obtain ⟨hinv', r, rfl, hr⟩ := hpost
  exact ⟨hinv', hr⟩

theorem advance (tag : TagId) {output : PathSet} {p : Position} {expected : Position → Prop}
    (hp : i.asked (.token p)) (houtput : ∀ q ∈ output, expected q)
    (htoken : ∀ t, i.reads p t → t.hasTag tag = true → expected t.span.stop)
    (hinv : i.inv run) :
    i.Finds (s.advance tag output p) run fun out => ∀ q ∈ out, expected q := by
  refine (Finds.readToken hp hinv).bind fun result run' hinv' hread => ?_
  have hnote (q : Position) :
      i.Finds (do modify (·.noteFailure q); pure output) run' fun out => ∀ q ∈ out, expected q :=
    ensures_bind.mpr (ensures_modify.mpr (Finds.pure (i.noteFailure q hinv') houtput))
  cases result with
  | error e => exact hnote e.position
  | ok token =>
      dsimp only
      split
      · next htag =>
          refine .pure hinv' fun q hq => ?_
          obtain rfl | hq := SortedSet.mem_insert.mp hq
          · exact htoken token (hread token rfl) htag
          · exact houtput q hq
      · exact hnote token.span.start

theorem terminal (tag : TagId) (input : PathSet)
    (hinput : ∀ p ∈ input, i.Admits (.terminal tag) p) (hinv : i.inv run) :
    i.Finds (s.terminal tag input) run fun out =>
      ∀ q ∈ out, ∃ p ∈ input, i.Leads (.terminal tag) p q := by
  have hfold (ps : List Position) (hps : ∀ p ∈ ps, p ∈ input) (output : PathSet)
      (houtput : ∀ q ∈ output, ∃ p ∈ input, i.Leads (.terminal tag) p q) (run : Run)
      (hinv : i.inv run) : i.Finds (ps.foldlM (s.advance tag) output) run fun out =>
        ∀ q ∈ out, ∃ p ∈ input, i.Leads (.terminal tag) p q := by
    induction ps generalizing output run with
    | nil => exact .pure hinv houtput
    | cons p ps ih =>
        rw [List.foldlM_cons]
        have hp := hps p List.mem_cons_self
        refine (advance tag (hinput p hp _ .terminal) houtput (fun t ht htag => ?_) hinv).bind
          fun out run' hinv' hout => ?_
        · exact ⟨p, hp, .terminal ht htag⟩
        · exact ih (fun p hp => hps p (List.mem_cons_of_mem _ hp)) out hout run' hinv'
  refine (hfold input.toList (fun p hp => Std.ExtTreeSet.mem_toList.mp hp) ∅ (by simp) run
    hinv).bind fun out run' hinv' hout => ?_
  split
  · exact .noPath hinv' input
  · exact .pure hinv' hout

theorem unite (input : PathSet) (xs : List (Search PathSet)) {expected : Position → Prop}
    (hxs : ∀ x ∈ xs, ∀ run, i.inv run → i.Finds x run fun out => ∀ q ∈ out, expected q)
    (output : PathSet) (houtput : ∀ q ∈ output, expected q) (cause : Option Failure)
    (hcause : ∀ f, cause = some f → i.fails f) (hinv : i.inv run) :
    i.Finds (Session.unite input xs output cause) run fun out => ∀ q ∈ out, expected q := by
  induction xs generalizing output cause run with
  | nil =>
      simp only [Session.unite]
      split
      · cases cause with
        | none => exact .noPath hinv input
        | some f => exact .throw hinv (hcause f rfl)
      · exact .pure hinv houtput
  | cons x xs ih =>
      have hrest : ∀ y ∈ xs, ∀ run, i.inv run → i.Finds y run fun out => ∀ q ∈ out, expected q :=
        fun y hy => hxs y (List.mem_cons_of_mem _ hy)
      rw [Session.unite]
      refine (hxs x List.mem_cons_self run hinv).attempt.bind fun found run' hinv' hfound => ?_
      cases found with
      | error f =>
          refine ih hrest output houtput (some f) (fun g hg => ?_) hinv'
          cases hg
          exact hfound
      | ok paths =>
          refine ih hrest (output ∪ paths) (fun q hq => ?_) cause hcause hinv'
          exact (Std.ExtTreeSet.mem_union_iff.mp hq).elim (houtput q) (hfound q)

theorem saturate {eval : PathSet → Search PathSet} {expected : Position → Prop}
    (heval : ∀ input, (∀ p ∈ input, expected p) → ∀ run, i.inv run →
      i.Finds (eval input) run fun out => ∀ q ∈ out, expected q) (n : Nat)
    (frontier result : PathSet) (hfrontier : ∀ p ∈ frontier, expected p)
    (hresult : ∀ q ∈ result, expected q) (hinv : i.inv run) :
    i.Finds (Session.saturate eval n frontier result) run fun out => ∀ q ∈ out, expected q := by
  induction n generalizing frontier result run with
  | zero => exact .pure hinv hresult
  | succ n ih =>
      rw [Session.saturate]
      refine (heval frontier hfrontier run hinv).attempt.bind fun found run' hinv' hfound => ?_
      cases found with
      | error f => exact .pure hinv' hresult
      | ok output =>
          have hfresh : ∀ q ∈ output \ result, expected q :=
            fun q hq => hfound q (Std.ExtTreeSet.mem_diff_iff.mp hq).1
          dsimp only
          split
          · exact .pure hinv' hresult
          · exact ih _ _ hfresh
              (fun q hq => (Std.ExtTreeSet.mem_union_iff.mp hq).elim (hresult q) (hfresh q)) hinv'

mutual

/-- An evaluation asks only what its rule does, and finds only what the answers lead to. -/
theorem evaluate (i : Inquiry s resolve) : ∀ (rule : Rule) (input : PathSet) (run : Run),
    (∀ p ∈ input, i.Admits rule p) → i.inv run →
      i.Finds (s.evaluate resolve rule input) run fun out =>
        ∀ q ∈ out, ∃ p ∈ input, i.Leads rule p q
  | .terminal tag, input, run, hinput, hinv => by
      rw [Session.evaluate]
      exact terminal tag input hinput hinv
  | .nonterminal rule, input, run, hinput, hinv => by
      rw [Session.evaluate]
      refine unite input _ (fun x hx run hinv => ?_) ∅ (by simp) none (by simp) hinv
      obtain ⟨p, hp, rfl⟩ := List.mem_map.mp hx
      have hp := Std.ExtTreeSet.mem_toList.mp hp
      have hanswer : i.Finds (resolve rule p) run fun out => ∀ q ∈ out, i.refers rule p q :=
        i.answer (hinput p hp _ .nonterminal) hinv
      exact hanswer.mono fun out hout q hq => ⟨p, hp, .nonterminal (hout q hq)⟩
  | .sequence items, input, run, hinput, hinv => by
      rw [Session.evaluate]
      exact evaluateItems i items input run hinput hinv
  | .optional body, input, run, hinput, hinv => by
      rw [Session.evaluate]
      refine (evaluate i body input run (fun p hp x hx => hinput p hp x (.optional hx))
        hinv).attempt.bind fun found run' hinv' hfound => ?_
      cases found with
      | error f => exact .pure hinv' fun q hq => ⟨q, hq, .skip⟩
      | ok output =>
          refine .pure hinv' fun q hq => ?_
          obtain hq | hq := Std.ExtTreeSet.mem_union_iff.mp hq
          · exact ⟨q, hq, .skip⟩
          · obtain ⟨p, hp, hl⟩ := hfound q hq
            exact ⟨p, hp, .take hl⟩
  | .repetition body, input, run, hinput, hinv => by
      rw [Session.evaluate]
      refine ensures_bind.mpr (ensures_get.mpr ?_)
      have hstop : ∀ p ∈ input, ∃ p' ∈ input, i.Leads (.repetition body) p' p :=
        fun p hp => ⟨p, hp, .stop⟩
      refine saturate (fun input' hinput' run hinv => ?_) _ input input hstop hstop hinv
      refine (evaluate i body input' run (fun m hm x hx => ?_) hinv).mono fun out hout q hq => ?_
      · obtain ⟨p, hp, hl⟩ := hinput' m hm
        exact hinput p hp x (.iteration hl hx)
      · obtain ⟨m, hm, hbody⟩ := hout q hq
        obtain ⟨p, hp, hl⟩ := hinput' m hm
        exact ⟨p, hp, hl.repetition_trans (.again hbody .stop)⟩
  | .alternation choices, input, run, hinput, hinv => by
      rw [Session.evaluate, Session.evaluateChoices_eq]
      refine unite input _ (fun x hx run hinv => ?_) ∅ (by simp) none (by simp) hinv
      obtain ⟨choice, hmem, rfl⟩ := List.mem_map.mp hx
      exact evaluateChoices i choices input choice hmem
        (fun p hp x hx => hinput p hp x (.choice hmem hx)) run hinv |>.mono fun out hout q hq => by
          obtain ⟨p, hp, hl⟩ := hout q hq
          exact ⟨p, hp, .choice hmem hl⟩
  | .switch feature body, input, run, hinput, hinv => by
      rw [Session.evaluate]
      split
      · next hf =>
          refine (evaluate i body input run (fun p hp x hx => hinput p hp x (.enabled hf hx))
            hinv).mono fun out hout q hq => ?_
          obtain ⟨p, hp, hl⟩ := hout q hq
          exact ⟨p, hp, .enabled hf hl⟩
      · next hf => exact .pure hinv fun q hq => ⟨q, hq, .disabled (by simpa using hf)⟩

theorem evaluateItems (i : Inquiry s resolve) : ∀ (items : List Rule) (input : PathSet)
    (run : Run), (∀ p ∈ input, i.Admits (.sequence items) p) → i.inv run →
      i.Finds (s.evaluateItems resolve items input) run fun out =>
        ∀ q ∈ out, ∃ p ∈ input, i.Leads (.sequence items) p q
  | [], input, run, _, hinv => by
      rw [Session.evaluateItems]
      exact .pure hinv fun q hq => ⟨q, hq, .nil⟩
  | item :: items, input, run, hinput, hinv => by
      rw [Session.evaluateItems]
      refine (evaluate i item input run (fun p hp x hx => hinput p hp x (.head hx)) hinv).bind
        fun paths run' hinv' hpaths => ?_
      refine (evaluateItems i items paths run' (fun m hm x hx => ?_) hinv').mono
        fun out hout q hq => ?_
      · obtain ⟨p, hp, hl⟩ := hpaths m hm
        exact hinput p hp x (.rest hl hx)
      · obtain ⟨m, hm, hrest⟩ := hout q hq
        obtain ⟨p, hp, hl⟩ := hpaths m hm
        exact ⟨p, hp, .cons hl hrest⟩

theorem evaluateChoices (i : Inquiry s resolve) : ∀ (choices : List Rule) (input : PathSet),
    ∀ choice ∈ choices, (∀ p ∈ input, i.Admits choice p) → ∀ run, i.inv run →
      i.Finds (s.evaluate resolve choice input) run fun out =>
        ∀ q ∈ out, ∃ p ∈ input, i.Leads choice p q
  | [], _, _, hx, _, _, _ => absurd hx List.not_mem_nil
  | choice :: choices, input, x, hx, hinput, run, hinv => by
      by_cases h : x = choice
      · rw [h] at hinput ⊢
        exact evaluate i choice input run hinput hinv
      · exact evaluateChoices i choices input x ((List.mem_cons.mp hx).resolve_left h) hinput run
          hinv

end

end Inquiry
end Multipath
