import Multipath.Derivation.Run

/-!
What a fallible computation does from one state on: `Ensures x st post` says that its result and
the state it leaves satisfy `post`. Failures leave a state like successes do, so a postcondition
speaks of both. Each primitive has one equivalence that moves it into the postcondition.
-/

namespace Multipath

theorem ok_of_toOption {ε α : Type} {x : Except ε α} {a : α}
    (h : x.toOption = some a) : x = .ok a := by
  cases x with
  | error e => cases h
  | ok b => exact congrArg Except.ok (Option.some.inj h)

/-- The failure that a computation ended in. -/
def failure? {ε α : Type} : Except ε α → Option ε
  | .ok _ => none
  | .error e => some e

theorem error_of_failure? {ε α : Type} {x : Except ε α} {e : ε}
    (h : failure? x = some e) : x = .error e := by
  cases x with
  | error e' => exact congrArg Except.error (Option.some.inj h)
  | ok a => cases h

def Ensures {σ α : Type} (x : ExceptT Failure (StateM σ) α) (st : σ)
    (post : Except Failure α → σ → Prop) : Prop :=
  post (x.run.run st).1 (x.run.run st).2

section Primitives
variable {σ α β : Type} {st : σ} {x : ExceptT Failure (StateM σ) α}

theorem ensures_pure {a : α} {post : Except Failure α → σ → Prop} :
    Ensures (pure a) st post ↔ post (.ok a) st := Iff.rfl

theorem ensures_throw {f : Failure} {post : Except Failure α → σ → Prop} :
    Ensures (throw f) st post ↔ post (.error f) st := Iff.rfl

theorem ensures_get {post : Except Failure σ → σ → Prop} :
    Ensures get st post ↔ post (.ok st) st := Iff.rfl

theorem ensures_modify {f : σ → σ} {post : Except Failure Unit → σ → Prop} :
    Ensures (modify f) st post ↔ post (.ok ()) (f st) := Iff.rfl

theorem ensures_modifyGet {f : σ → α × σ} {post : Except Failure α → σ → Prop} :
    Ensures (modifyGet f) st post ↔ post (.ok (f st).1) (f st).2 := Iff.rfl

theorem ensures_bind {f : α → ExceptT Failure (StateM σ) β}
    {post : Except Failure β → σ → Prop} :
    Ensures (x >>= f) st post ↔ Ensures x st fun
      | .ok a, st' => Ensures (f a) st' post
      | .error e, st' => post (.error e) st' := by
  have h : (x >>= f).run.run st = match x.run.run st with
      | (.ok a, st') => (f a).run.run st'
      | (.error e, st') => (.error e, st') := by
    simp only [ExceptT.run_bind, StateT.run_bind]
    rcases x.run.run st with ⟨_ | _, _⟩ <;> rfl
  unfold Ensures
  rw [h]
  rcases x.run.run st with ⟨_ | _, _⟩ <;> rfl

/-- Going on with the result, failures included. -/
theorem ensures_settled {f : Except Failure α → ExceptT Failure (StateM σ) β}
    {post : Except Failure β → σ → Prop} :
    Ensures (ExceptT.lift x.run >>= f) st post ↔
      Ensures x st fun result after => Ensures (f result) after post := ensures_bind

theorem Ensures.mono {post post' : Except Failure α → σ → Prop} (h : Ensures x st post)
    (himp : ∀ result st', post result st' → post' result st') : Ensures x st post' :=
  himp _ _ h

theorem Ensures.and {post post' : Except Failure α → σ → Prop} (h : Ensures x st post)
    (h' : Ensures x st post') : Ensures x st fun result st' => post result st' ∧ post' result st' :=
  ⟨h, h'⟩

/-- What is ensured holds of the outcome at hand. -/
theorem Ensures.of_run {post : Except Failure α → σ → Prop} {result : Except Failure α} {st' : σ}
    (h : Ensures x st post) (hrun : x.run.run st = (result, st')) : post result st' := by
  unfold Ensures at h
  rwa [hrun] at h

theorem Ensures.of_eq {post : Except Failure α → σ → Prop} {result : Except Failure α} {st' : σ}
    (hrun : x.run.run st = (result, st')) (h : post result st') : Ensures x st post := by
  unfold Ensures
  rwa [hrun]

theorem Ensures.of_forall {post : Except Failure α → σ → Prop}
    (h : ∀ result st', post result st') : Ensures x st post := h _ _

end Primitives

namespace Search

variable {α : Type} {run : Run} {x : Search α}

theorem ensures_outcome {post : Except Failure (Except Failure α) → Run → Prop} :
    Ensures (outcome x) run post ↔ Ensures x run fun result => post (.ok result) := Iff.rfl

theorem ensures_attempt {post : Except Failure (Except Failure α) → Run → Prop} :
    Ensures (attempt x) run post ↔ Ensures x run fun
      | .ok a, run' => post (.ok (.ok a)) run'
      | .error f, run' =>
        if f.isAbsorbable then post (.ok (.error f)) run' else post (.error f) run' := by
  unfold attempt
  rw [ensures_bind, ensures_outcome]
  unfold Ensures
  rcases x.run.run run with ⟨_ | _, _⟩
  · dsimp only
    split <;> rfl
  · rfl

theorem ensures_outputOf {node : NodeId} {post : Except Failure PathSet → Run → Prop} :
    Ensures (outputOf node) run post ↔ post (.ok (run.arena.output node)) run := Iff.rfl

theorem ensures_noPath {input : PathSet} {post : Except Failure α → Run → Prop} :
    Ensures (noPath input) run post ↔
      post (.error (.noPath (run.frames.head?.map (·.rule)) (input.min?.getD .start))) run :=
  Iff.rfl

theorem ensures_readToken {source : Source} {p : Position}
    {post : Except Failure (Except LexicalError Token) → Run → Prop} :
    Ensures (readToken source p) run post ↔
      post (.ok ((run.lexer.restore p).next source).1)
        { run with lexer := ((run.lexer.restore p).next source).2 } := Iff.rfl

/-- Searches that ensure the same are equal. -/
theorem ext_ensures {x y : Search α}
    (h : ∀ run post, Ensures y run post → Ensures x run post) : x = y :=
  funext fun run => h run (fun result run' => (result, run') = y.run.run run) rfl

end Search
end Multipath
