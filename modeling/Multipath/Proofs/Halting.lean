import Multipath.Proofs.Budget
import Multipath.Proofs.Unbounded

/-!
Searches come to an end. An unbounded search halts like a bounded one if it comes to an end with the
same result and the same run. Rules nest no deeper than there are findings to be made, since each
one that is entered stands for a new finding; and a repetition goes no further than there are
positions on the chain, since each round finds a new one. So from a run that keeps to the chain
every evaluation and derivation halts, and it halts as it does within bounds that are high enough.
-/

namespace Multipath

open Search (attempt outputOf)

section Halts
variable {σ α β : Type}

theorem Endless.get_bind (f : σ → Endless σ α) (st : σ) : (get >>= f) st = f st st := rfl

/-- `x` comes to an end, and to the same one as `y`. -/
def Halts (x : Endless σ (Except Failure α)) (y : ExceptT Failure (StateM σ) α) (st : σ) : Prop :=
  Ensures y st fun result after => x st = some (result, after)

theorem Halts.ofTotal (y : ExceptT Failure (StateM σ) α) (st : σ) : Halts (.ofTotal y) y st := rfl

theorem Halts.pure (a : α) (st : σ) : Halts (Pure.pure (.ok a)) (Pure.pure a) st := rfl

theorem Halts.throw (f : Failure) (st : σ) :
    Halts (Pure.pure (.error f) : Endless σ (Except Failure α)) (MonadExcept.throw f) st := rfl

/-- Going on from where a computation came to an end. -/
theorem Halts.after {x : Endless σ α} {f : α → Endless σ (Except Failure β)}
    {y : ExceptT Failure (StateM σ) β} {a : α} {st after : σ} (hx : x st = some (a, after))
    (h : Halts (f a) y after) : Ensures y after fun result last =>
      (x >>= f) st = some (result, last) := by
  refine Ensures.mono h fun result last heq => ?_
  show (x st).bind _ = _
  rw [hx]
  exact heq

/-- Going on with what was found. -/
theorem Halts.bind {x : Endless σ (Except Failure α)}
    {f : Except Failure α → Endless σ (Except Failure β)} {y : ExceptT Failure (StateM σ) α}
    {g : α → ExceptT Failure (StateM σ) β} {st : σ} (hx : Halts x y st)
    (hfg : Ensures y st fun result after => ∀ a, result = .ok a → Halts (f (.ok a)) (g a) after)
    (hfails : ∀ e, f (.error e) = Pure.pure (.error e)) : Halts (x >>= f) (y >>= g) st := by
  refine ensures_bind.mpr (Ensures.mono (hx.and hfg) fun result after hpost => ?_)
  obtain ⟨hends, hnext⟩ := hpost
  cases result with
  | ok a => exact Halts.after hends (hnext a rfl)
  | error e =>
      have hthrow : Halts (f (.error e)) (MonadExcept.throw e) after := by
        rw [hfails e]
        exact .throw e after
      exact Halts.after hends hthrow

/-- Going on with the result, whatever it is. -/
theorem Halts.settled {x : Endless σ (Except Failure α)}
    {f : Except Failure α → Endless σ (Except Failure β)} {y : ExceptT Failure (StateM σ) α}
    {g : Except Failure α → ExceptT Failure (StateM σ) β} {st : σ} (hx : Halts x y st)
    (hfg : Ensures y st fun result after => Halts (f result) (g result) after) :
    Halts (x >>= f) (ExceptT.lift y.run >>= g) st :=
  ensures_settled.mpr (Ensures.mono (hx.and hfg) fun _ _ hpost => Halts.after hpost.1 hpost.2)

theorem Halts.attempt {x : Endless Run (Except Failure α)} {y : Search α}
    {f : Except Failure α → Endless Run (Except Failure β)} {g : Except Failure α → Search β}
    {run : Run} (hx : Halts x y run)
    (hfg : Ensures y run fun result run' =>
      (∀ e, result = .error e → e.isAbsorbable = true) → Halts (f result) (g result) run')
    (hcut : ∀ e, e.isAbsorbable = false → f (.error e) = Pure.pure (.error e)) :
    Halts (x >>= f) (attempt y >>= g) run := by
  refine ensures_bind.mpr (Search.ensures_attempt.mpr ?_)
  refine Ensures.mono (hx.and hfg) fun result run' hpost => ?_
  obtain ⟨hends, hnext⟩ := hpost
  cases result with
  | ok a => exact Halts.after hends (hnext fun _ heq => by cases heq)
  | error e =>
      dsimp only
      split
      · next he => exact Halts.after hends (hnext fun _ heq => Except.error.inj heq ▸ he)
      · next he =>
          have hthrow : Halts (f (.error e)) (MonadExcept.throw e) run' := by
            rw [hcut e (by simpa using he)]
            exact .throw e run'
          exact Halts.after hends hthrow

/-- An attempt at the output of a node is an attempt at the node. -/
theorem attempt_outputOf {y : Search NodeId} {g : Except Failure PathSet → Search β} :
    attempt (y >>= outputOf) >>= g = attempt y >>= fun
      | .ok node => outputOf node >>= fun paths => g (.ok paths)
      | .error e => g (.error e) := by
  refine Search.ext_ensures fun run post h => ?_
  refine ensures_bind.mpr (Search.ensures_attempt.mpr (ensures_bind.mpr ?_))
  refine Ensures.mono (Search.ensures_attempt.mp (ensures_bind.mp h)) fun result run' hpost => ?_
  cases result with
  | ok node => exact hpost
  | error e => exact hpost

end Halts

namespace Run

variable {s : Session} {start : Position} {limit : Limit} {depth k : Nat} {run run' : Run}

/-- As many rules are under way as before, and no finding was taken back. -/
structure Returns (run run' : Run) : Prop where
  height : run'.frames.length = run.frames.length
  findings : run.memo.size ≤ run'.memo.size

theorem returns_enclosing : Enclosing s Returns where
  refl _ := ⟨rfl, Nat.le_refl _⟩
  trans h h' := ⟨h'.height.trans h.height, Nat.le_trans h.findings h'.findings⟩
  lexer _ _ := ⟨rfl, Nat.le_refl _⟩
  noteFailure _ _ := ⟨rfl, Nat.le_refl _⟩
  countMemoHit _ := ⟨rfl, Nat.le_refl _⟩
  countLeftRecursion _ := ⟨rfl, Nat.le_refl _⟩
  fail {run run' rule p} _ h f := by
    have hheight : run'.frames.length = run.frames.length + 1 := h.height
    refine ⟨by simp [fail, hheight], ?_⟩
    exact Nat.le_trans Std.TreeMap.size_le_size_insert
      (Nat.le_trans h.findings Std.TreeMap.size_le_size_insert)
  succeed {run run' rule p} _ h out := by
    have hheight : run'.frames.length = run.frames.length + 1 := h.height
    refine ⟨by simp [succeed, (attach_tail _ _).2, hheight], ?_⟩
    exact Nat.le_trans Std.TreeMap.size_le_size_insert
      (Nat.le_trans h.findings Std.TreeMap.size_le_size_insert)

/-- A run that keeps to the chain, in which rules may nest `depth` levels deeper and at most `k`
findings are left to be made. Where there is no limit, more levels are left than findings. -/
structure Ready (s : Session) (start : Position) (limit : Limit) (depth k : Nat)
    (run : Run) : Prop where
  valid : run.Valid s (.chain s.source start)
  defined : run.Defined s
  findings : (s.references start).length ≤ run.memo.size + k
  room : match limit with
    | some most => depth = most - run.frames.length
    | none => (s.references start).length < run.memo.size + depth

theorem Ready.mono (h : run.Ready s start limit depth k)
    (hv : run'.Valid s (.chain s.source start)) (hd : run'.Defined s)
    (hreturns : run.Returns run') : run'.Ready s start limit depth k := by
  have hfindings := hreturns.findings
  refine ⟨hv, hd, Nat.le_trans h.findings (by omega), ?_⟩
  have hroom := h.room
  cases limit with
  | none =>
      dsimp only at hroom ⊢
      omega
  | some most => rwa [← hreturns.height] at hroom

/-- The limit is met just when no level is left. -/
theorem Ready.isFull_iff (h : run.Ready s start limit depth k) :
    limit.isFull run.frames.length = true ↔ depth = 0 := by
  have hroom := h.room
  cases limit with
  | none =>
      have hle := h.valid.size_memo_le h.defined
      dsimp only at hroom
      simp only [Limit.isFull, Option.any_none, Bool.false_eq_true, false_iff]
      omega
  | some most =>
      dsimp only at hroom
      simp only [Limit.isFull, Option.any_some, decide_eq_true_eq]
      omega

/-- A rule that is entered takes up a level and a finding. -/
theorem Ready.enter (h : run.Ready s start limit (depth + 1) k) {rule : RuleId} {p : Position}
    (hp : s.source.OnChain start p) (hrule : s.grammar.rule? rule ≠ none)
    (hnone : run.memo.find? p rule = none) :
    ∃ k', k = k' + 1 ∧ (run.enter rule p).Ready s start limit depth k' := by
  have hentered := run.enter_records rule p
  have hsize : (run.enter rule p).memo.size = run.memo.size + 1 := by
    rw [hentered.memo, Memo.size_record_of_none hnone]
  have hlt := h.valid.size_memo_lt h.defined hp hrule hnone
  have hfindings := h.findings
  refine ⟨k - 1, by omega, ?_, h.defined.record hentered hrule, by omega, ?_⟩
  · exact hentered.valid h.valid hp (by simp [hnone]) rfl (by simp)
  · have hroom := h.room
    cases limit with
    | none =>
        dsimp only at hroom ⊢
        omega
    | some most =>
        have hheight : (run.enter rule p).frames.length = run.frames.length + 1 := rfl
        dsimp only at hroom ⊢
        omega

end Run

namespace Session

variable {s : Session} {start : Position} {limit : Limit} {depth k : Nat} {run : Run}

/-- Evaluating on the chain leads along the chain, and from nowhere to nowhere. -/
theorem evaluate_ready (h : run.Ready s start limit depth k) (rule : Rule) {input : PathSet}
    (hinput : ∀ p ∈ input, s.source.OnChain start p) :
    Ensures (s.evaluate (fun r q => s.deriveWithin depth r q >>= outputOf) rule input) run
      fun result run' => run'.Ready s start limit depth k ∧
        ∀ out, result = .ok out → ∀ q ∈ out, input ≠ ∅ ∧ s.source.OnChain start q := by
  have hwithin : ∀ p ∈ input, run.Within (.chain s.source start) p :=
    fun p hp => .inl (hinput p hp)
  have hsound := evaluate_sound (resolver_sound depth) rule input run h.valid hwithin
  have hdefined := evaluateWithin_keeps Run.staysDefined_enclosing (s := s) depth rule input run
  have hreturns := evaluateWithin_keeps Run.returns_enclosing (s := s) depth rule input run
  refine Ensures.mono (hsound.and (hdefined.and hreturns)) fun result run' hpost => ?_
  obtain ⟨⟨hv, hg, hfound⟩, hd, hreturns⟩ := hpost
  refine ⟨h.mono hv (hd h.defined) hreturns, fun out hout q hq => ?_⟩
  obtain ⟨p, hp, hl⟩ := (hfound out hout).2 q hq
  refine ⟨SortedSet.ne_empty_iff.mpr ⟨p, hp⟩, ?_⟩
  exact hv.origin_of_within (hv.leads_within hl (hg.within (hwithin p hp)))

theorem derive_ready (h : run.Ready s start limit depth k) (rule : RuleId) {p : Position}
    (hp : s.source.OnChain start p) :
    Ensures (s.deriveWithin depth rule p) run fun _ run' => run'.Ready s start limit depth k := by
  have hsound := deriveWithin_sound depth rule p run h.valid (.inl hp)
  have hdefined := deriveWithin_keeps Run.staysDefined_enclosing (s := s) depth rule p run
  have hreturns := deriveWithin_keeps Run.returns_enclosing (s := s) depth rule p run
  refine Ensures.mono (hsound.and (hdefined.and hreturns)) fun result run' hpost => ?_
  exact h.mono hpost.1.1 (hpost.2.1 h.defined) hpost.2.2

/-- Rules can be derived on the chain from every run that is ready. -/
def DerivationsHalt (s : Session) (start : Position) (limit : Limit) (depth k : Nat) : Prop :=
  ∀ rule p run, run.Ready s start limit depth k → s.source.OnChain start p →
    Halts (Limit.derive s limit rule p) (s.deriveWithin depth rule p) run

theorem references_halt (hderive : s.DerivationsHalt start limit depth k) (rule : RuleId)
    (input : PathSet) (ps : List Position) (output : PathSet) (cause : Option Failure)
    (h : run.Ready s start limit depth k) (hps : ∀ p ∈ ps, s.source.OnChain start p) :
    Halts (Limit.references s limit rule input ps output cause)
      (unite input (ps.map fun p => s.deriveWithin depth rule p >>= outputOf) output cause)
      run := by
  induction ps generalizing output cause run with
  | nil =>
      rw [Limit.references]
      exact .ofTotal _ run
  | cons p ps ih =>
      have hp : s.source.OnChain start p := hps p List.mem_cons_self
      have hrest : ∀ q ∈ ps, s.source.OnChain start q :=
        fun q hq => hps q (List.mem_cons_of_mem _ hq)
      rw [Limit.references, List.map_cons, unite, attempt_outputOf]
      refine (hderive rule p run h hp).attempt ?_ fun e he => by simp [he]
      refine Ensures.mono (derive_ready h rule hp) fun result run' hready hborne => ?_
      cases result with
      | ok node => exact ih (output ∪ run'.arena.output node) cause hready hrest
      | error f =>
          have hf := hborne f rfl
          simp only [hf, if_true]
          exact ih output (some f) hready hrest

/-- A repetition goes on for as many rounds as there are positions, at most. -/
theorem repetition_halts {resolve : Resolver} {body : Rule}
    (hbody : ∀ frontier run, run.Ready s start limit depth k →
      (∀ p ∈ frontier, s.source.OnChain start p) →
      Halts (Limit.evaluate s limit body frontier) (s.evaluate resolve body frontier) run)
    (hready : ∀ frontier run, run.Ready s start limit depth k →
      (∀ p ∈ frontier, s.source.OnChain start p) →
      Ensures (s.evaluate resolve body frontier) run fun result run' =>
        run'.Ready s start limit depth k ∧
          ∀ out, result = .ok out → ∀ q ∈ out, frontier ≠ ∅ ∧ s.source.OnChain start q)
    (n : Nat) (frontier result : PathSet) (h : run.Ready s start limit depth k)
    (hfrontier : ∀ p ∈ frontier, s.source.OnChain start p)
    (hresult : ∀ p ∈ result, s.source.OnChain start p) (hn : n ≠ 0)
    (hrounds : frontier ≠ ∅ → (s.source.positionsFrom start).length < result.size + n) :
    Halts (Limit.repetition s limit body frontier result)
      (saturate (s.evaluate resolve body) n frontier result) run := by
  induction n generalizing frontier result run with
  | zero => exact absurd rfl hn
  | succ n ih =>
      rw [Limit.repetition, saturate]
      refine (hbody frontier run h hfrontier).attempt ?_ fun e he => by simp [he]
      refine Ensures.mono (hready frontier run h hfrontier) fun found run' hpost hborne => ?_
      obtain ⟨hready', hfound⟩ := hpost
      cases found with
      | error f =>
          have hf := hborne f rfl
          simp only [hf, if_true]
          exact .pure result run'
      | ok output =>
          dsimp only
          split
          · exact .pure result run'
          · next hfresh =>
              have hgrown := SortedSet.size_lt_size_union_diff hfresh
              have hmem (q : Position) (hq : q ∈ output \ result) :
                  frontier ≠ ∅ ∧ s.source.OnChain start q :=
                hfound output rfl q (Std.ExtTreeSet.mem_diff_iff.mp hq).1
              have hall : ∀ q ∈ result ∪ (output \ result), s.source.OnChain start q := by
                intro q hq
                obtain hq | hq := Std.ExtTreeSet.mem_union_iff.mp hq
                · exact hresult q hq
                · exact (hmem q hq).2
              have hne : output \ result ≠ ∅ := fun heq => hfresh (by simp [heq])
              obtain ⟨q, hq⟩ := SortedSet.ne_empty_iff.mp hne
              have hlt := hrounds (hmem q hq).1
              have hle := Source.size_le_of_onChain hall
              exact ih _ _ hready' (fun q hq => (hmem q hq).2) hall (by omega) fun _ => by omega

theorem repetition_rounds {input : PathSet} (hinput : input ≠ ∅) (run : Run) :
    (s.source.positionsFrom start).length < input.size + s.pathBound run := by
  have hpos : input.size ≠ 0 := fun hzero =>
    hinput (Std.ExtTreeSet.eq_empty_iff_size_eq_zero.mpr hzero)
  have hle := s.source.length_tokensFrom_le start
  rw [Source.length_positionsFrom]
  unfold pathBound
  omega

mutual

theorem evaluate_halts (hderive : s.DerivationsHalt start limit depth k) :
    ∀ (rule : Rule) (input : PathSet) (run : Run), run.Ready s start limit depth k →
      (∀ p ∈ input, s.source.OnChain start p) →
      Halts (Limit.evaluate s limit rule input)
        (s.evaluate (fun r q => s.deriveWithin depth r q >>= outputOf) rule input) run
  | .terminal tag, input, run, h, hinput => by
      rw [Limit.evaluate, evaluate]
      exact .ofTotal _ run
  | .nonterminal rule, input, run, h, hinput => by
      rw [Limit.evaluate, evaluate]
      exact references_halt hderive rule input input.toList ∅ none h
        fun p hp => hinput p (Std.ExtTreeSet.mem_toList.mp hp)
  | .sequence items, input, run, h, hinput => by
      rw [Limit.evaluate, evaluate]
      exact sequence_halts hderive items input run h hinput
  | .optional body, input, run, h, hinput => by
      rw [Limit.evaluate, evaluate]
      refine (evaluate_halts hderive body input run h hinput).attempt ?_ fun e he => by simp [he]
      refine Ensures.of_forall fun found run' hborne => ?_
      cases found with
      | ok output => exact .pure (input ∪ output) run'
      | error f =>
          have hf := hborne f rfl
          simp only [hf, if_true]
          exact .pure input run'
  | .repetition body, input, run, h, hinput => by
      rw [Limit.evaluate, evaluate]
      refine ensures_bind.mpr (ensures_get.mpr ?_)
      exact repetition_halts (evaluate_halts hderive body)
        (fun frontier run h hfrontier => evaluate_ready h body hfrontier) (s.pathBound run) input
        input h hinput hinput (by unfold pathBound; omega) fun hne => repetition_rounds hne run
  | .alternation choices, input, run, h, hinput => by
      rw [Limit.evaluate, evaluate]
      exact alternation_halts hderive choices input ∅ none run h hinput
  | .switch feature body, input, run, h, hinput => by
      rw [Limit.evaluate, evaluate]
      split
      · exact evaluate_halts hderive body input run h hinput
      · exact .pure input run

theorem sequence_halts (hderive : s.DerivationsHalt start limit depth k) :
    ∀ (items : List Rule) (paths : PathSet) (run : Run), run.Ready s start limit depth k →
      (∀ p ∈ paths, s.source.OnChain start p) →
      Halts (Limit.sequence s limit items paths)
        (s.evaluateItems (fun r q => s.deriveWithin depth r q >>= outputOf) items paths) run
  | [], paths, run, _, _ => by
      rw [Limit.sequence, evaluateItems]
      exact .pure paths run
  | item :: items, paths, run, h, hpaths => by
      rw [Limit.sequence, evaluateItems]
      refine (evaluate_halts hderive item paths run h hpaths).bind ?_ fun e => rfl
      refine Ensures.mono (evaluate_ready h item hpaths) fun result run' hpost out hout => ?_
      exact sequence_halts hderive items out run' hpost.1 fun q hq => (hpost.2 out hout q hq).2

theorem alternation_halts (hderive : s.DerivationsHalt start limit depth k) :
    ∀ (choices : List Rule) (input output : PathSet) (cause : Option Failure) (run : Run),
      run.Ready s start limit depth k → (∀ p ∈ input, s.source.OnChain start p) →
      Halts (Limit.alternation s limit input choices output cause)
        (unite input (s.evaluateChoices
          (fun r q => s.deriveWithin depth r q >>= outputOf) choices input) output cause) run
  | [], input, output, cause, run, _, _ => by
      rw [Limit.alternation, evaluateChoices]
      exact .ofTotal _ run
  | choice :: choices, input, output, cause, run, h, hinput => by
      rw [Limit.alternation, evaluateChoices, unite]
      refine (evaluate_halts hderive choice input run h hinput).attempt ?_ fun e he => by simp [he]
      refine Ensures.mono (evaluate_ready h choice hinput) fun found run' hpost hborne => ?_
      cases found with
      | ok paths =>
          exact alternation_halts hderive choices input (output ∪ paths) cause run' hpost.1 hinput
      | error f =>
          have hf := hborne f rfl
          simp only [hf, if_true]
          exact alternation_halts hderive choices input output (some f) run' hpost.1 hinput

end

/-- What is settled is looked up, and what is not is found out by `fresh`. -/
theorem derive_halts_of_fresh {rule : RuleId} {p : Position} {fresh : Search NodeId}
    (hfresh : run.memo.find? p rule = none → Halts (Limit.derive s limit rule p) fresh run) :
    Halts (Limit.derive s limit rule p) (consult rule p fresh) run := by
  refine ensures_consult.mpr ?_
  split
  · next id hm => rw [Limit.derive, Endless.get_bind, hm]; rfl
  · next f hm => rw [Limit.derive, Endless.get_bind, hm]; rfl
  · next hm => rw [Limit.derive, Endless.get_bind, hm]; rfl
  · next hm => exact hfresh hm

/-- A rule without a finding is cut off where no level is left, and else its body is evaluated. -/
theorem derive_of_none {rule : RuleId} {p : Position} (hm : run.memo.find? p rule = none) :
    Limit.derive s limit rule p run =
      if limit.isFull run.frames.length then some (.error (.depthLimit rule p), run)
      else match s.grammar.rule? rule with
        | none => some (.error (.noPath (some rule) p), run)
        | some definition =>
          (do
            match ← Limit.evaluate s limit definition.body {p} with
            | .ok output =>
              let node ← modifyGet (·.succeed rule p output)
              pure (.ok node)
            | .error failure =>
              modify (·.fail rule p failure)
              pure (.error failure) : Endless Run (Except Failure NodeId)) (run.enter rule p) := by
  rw [Limit.derive, Endless.get_bind, hm]
  dsimp only
  rw [Endless.get_bind]
  split
  · rfl
  · cases s.grammar.rule? rule <;> rfl

/-- Derivations halt, by induction on the findings that are left to be made. -/
theorem derivations_halt (k depth : Nat) : s.DerivationsHalt start limit depth k := by
  induction k using Nat.strongRecOn generalizing depth with
  | ind k ih =>
      intro rule p run h hp
      cases depth with
      | zero =>
          refine derive_halts_of_fresh fun hm => ensures_throw.mpr ?_
          rw [derive_of_none hm, if_pos (h.isFull_iff.mpr rfl)]
      | succ depth =>
          refine derive_halts_of_fresh fun hm => ?_
          have hfull : ¬limit.isFull run.frames.length = true := by simp [h.isFull_iff]
          unfold Halts
          rw [derive_of_none hm, if_neg hfull]
          unfold deriveFresh
          cases hdef : s.grammar.rule? rule with
          | none => exact ensures_throw.mpr rfl
          | some definition =>
              obtain ⟨k', rfl, hentered⟩ := h.enter hp (by simp [hdef]) hm
              refine ensures_bind.mpr (ensures_modify.mpr ?_)
              have hbody := evaluate_halts (ih k' (Nat.lt_succ_self k') depth) definition.body {p}
                (run.enter rule p) hentered (by simpa using hp)
              refine hbody.settled (Ensures.of_forall fun result run' => ?_)
              cases result with
              | ok out => rfl
              | error f => rfl

end Session
end Multipath
