import Multipath.Proofs.Mirrors

/-!
Plain derivation: the same evaluator with nothing remembered, every reference derived anew below
the one that asks, down to some depth. What a plain derivation ends in depends neither on the run it
starts from nor on the depth, unless it is cut off, and it adds to the failures noted what it would
note alone (`Session.Concludes`).
-/

namespace Multipath

open Search (Mirrors outcome)

namespace Position

instance : Std.Associative (max : Position → Position → Position) where
  assoc p q r := by
    simp only [max, le_def, lt_def]
    grind [Position]

instance : Std.Commutative (max : Position → Position → Position) where
  comm p q := by
    simp only [max, le_def, lt_def]
    grind [Position]

instance : Std.IdempotentOp (max : Position → Position → Position) where
  idempotent p := by
    simp only [max, le_def, lt_def]
    grind

end Position

/-- The furthest of two failures noted. -/
def furthestOf : Option Position → Option Position → Option Position := Option.merge max

namespace Furthest

instance : Std.Associative furthestOf := inferInstanceAs (Std.Associative (Option.merge max))

instance : Std.Commutative furthestOf := inferInstanceAs (Std.Commutative (Option.merge max))

instance : Std.IdempotentOp furthestOf := inferInstanceAs (Std.IdempotentOp (Option.merge max))

theorem assoc (f f' f'' : Option Position) :
    furthestOf (furthestOf f f') f'' = furthestOf f (furthestOf f' f'') :=
  Std.Associative.assoc f f' f''

theorem comm (f f' : Option Position) : furthestOf f f' = furthestOf f' f :=
  Std.Commutative.comm f f'

@[simp] theorem self (f : Option Position) : furthestOf f f = f :=
  Std.IdempotentOp.idempotent f

@[simp] theorem none_left (f : Option Position) : furthestOf none f = f := by
  cases f <;> rfl

@[simp] theorem none_right (f : Option Position) : furthestOf f none = f := by
  cases f <;> rfl

/-- What was noted already is not noted again. -/
theorem again (f latest : Option Position) :
    furthestOf (furthestOf f latest) latest = furthestOf f latest := by
  rw [assoc, self]

theorem swap (f f' latest : Option Position) :
    furthestOf (furthestOf f f') latest = furthestOf (furthestOf f latest) f' := by
  rw [assoc, comm f', assoc]

end Furthest

namespace Run

/-- Opens a frame for a rule and records nothing. -/
def push (run : Run) (rule : RuleId) : Run := { run with frames := ⟨rule, []⟩ :: run.frames }

def pop (run : Run) : Run := { run with frames := run.frames.tail }

theorem furthest_noteFailure (run : Run) (p : Position) :
    (run.noteFailure p).furthest = furthestOf run.furthest (some p) := by
  cases h : run.furthest with
  | none => simp [noteFailure, h]
  | some q => simp [noteFailure, h, furthestOf, Option.merge]

/-- The rules being derived, the innermost first. -/
def rules (run : Run) : List RuleId := run.frames.map (·.rule)

@[simp] theorem rules_push (run : Run) (rule : RuleId) :
    (run.push rule).rules = rule :: run.rules := rfl

@[simp] theorem rules_pop (run : Run) : run.pop.rules = run.rules.tail := List.map_tail

theorem rules_attach (node : NodeId) (frames : List Frame) :
    (attach node frames).map (·.rule) = frames.map (·.rule) := by
  cases frames <;> rfl

theorem rules_succeed (run : Run) (rule : RuleId) (p : Position) (out : PathSet) :
    (run.succeed rule p out).2.rules = run.rules.tail :=
  (rules_attach _ _).trans List.map_tail

theorem head?_rules (run : Run) : run.frames.head?.map (·.rule) = run.rules.head? := by
  simp [rules]

end Run

/-- A search below a frame of its own. -/
def Search.framed {α : Type} (rule : RuleId) (x : Search α) : Search α := do
  modify (·.push rule)
  let result ← outcome x
  modify Run.pop
  ExceptT.mk (pure result)

theorem Search.ensures_framed {α : Type} {rule : RuleId} {x : Search α} {run : Run}
    {post : Except Failure α → Run → Prop} :
    Ensures (framed rule x) run post ↔
      Ensures x (run.push rule) fun result run' => post result run'.pop := Iff.rfl

theorem Search.Mirrors.framed {α : Type} {rel rel' : Run → Run → Prop} {good : α → Prop}
    {rule : RuleId} {x y : Search α} {run run' : Run}
    (h : Mirrors rel good x y (run.push rule) (run'.push rule))
    (hpop : ∀ after after', rel after after' → rel' after.pop after'.pop) :
    Mirrors rel' good (framed rule x) (framed rule y) run run' := by
  refine ensures_framed.mpr (Ensures.mono h fun result after' hx hu => ?_)
  refine ensures_framed.mpr (Ensures.mono (hx hu) fun result' after hpost => ?_)
  exact ⟨hpost.1, hpop after after' hpost.2.1, hpost.2.2⟩

namespace Session

variable {s : Session}

/-- Derives a rule anew, with `depth` levels of nesting left. -/
def plainly (s : Session) : Nat → Resolver
  | 0, rule, p => throw (.depthLimit rule p)
  | depth + 1, rule, p =>
    match s.grammar.rule? rule with
    | none => throw (.noPath (some rule) p)
    | some definition =>
      Search.framed rule (s.evaluate (plainly s depth) definition.body {p})

/-- Two runs that note the same failures from `f` and `f'` on, below the rules `stack` and
`stack'`. -/
structure Abreast (s : Session) (stack stack' : List RuleId) (f f' : Option Position)
    (run run' : Run) : Prop where
  rules : run.rules = stack
  rules' : run'.rules = stack'
  readFrom : run.lexer.ReadFrom s.source s.source.IsPlace
  readFrom' : run'.lexer.ReadFrom s.source s.source.IsPlace
  furthest : ∃ latest, run.furthest = furthestOf f latest ∧ run'.furthest = furthestOf f' latest

theorem readToken_mirrors {rel : Run → Run → Prop} {run run' : Run} {p : Position}
    (hp : s.source.IsPlace p) (hread : run.lexer.ReadFrom s.source s.source.IsPlace)
    (hread' : run'.lexer.ReadFrom s.source s.source.IsPlace)
    (hrel : ∀ l l' : Lexer, l.ReadFrom s.source s.source.IsPlace →
      l'.ReadFrom s.source s.source.IsPlace →
      rel { run with lexer := l } { run' with lexer := l' }) :
    Mirrors rel (· = s.source.token p) (Search.readToken s.source p)
      (Search.readToken s.source p) run run' := by
  have once := Lexer.next_spec (l := run.lexer.restore p) hread hp
  have once' := Lexer.next_spec (l := run'.lexer.restore p) hread' hp
  have htoken := Lexer.next_eq_token (l := run.lexer.restore p) hread hp
  have htoken' := Lexer.next_eq_token (l := run'.lexer.restore p) hread' hp
  refine Search.ensures_readToken.mpr fun _ => Search.ensures_readToken.mpr ⟨?_, ?_, ?_⟩
  · rw [htoken, htoken']
    rfl
  · exact hrel _ _ once.readFrom once'.readFrom
  · intro result heq
    cases heq
    exact htoken'

section Plain
variable {stack stack' : List RuleId} {f f' : Option Position} {run run' : Run}

theorem Abreast.couples (hhead : stack.head? = stack'.head?) :
    s.Couples (s.Abreast stack stack' f f') where
  rules h := by rw [Run.head?_rules, Run.head?_rules, h.rules, h.rules', hhead]
  notes p h := by
    obtain ⟨latest, hf, hf'⟩ := h.furthest
    refine ⟨h.rules, h.rules', h.readFrom, h.readFrom', furthestOf latest (some p), ?_, ?_⟩
    · rw [Run.furthest_noteFailure, hf, Furthest.assoc]
    · rw [Run.furthest_noteFailure, hf', Furthest.assoc]
  reads h hp := readToken_mirrors hp h.readFrom h.readFrom'
    fun _ _ hl hl' => ⟨h.rules, h.rules', hl, hl', h.furthest⟩

theorem Abreast.push (h : s.Abreast stack stack' f f' run run') (rule : RuleId) :
    s.Abreast (rule :: stack) (rule :: stack') f f' (run.push rule) (run'.push rule) :=
  ⟨by simp [h.rules], by simp [h.rules'], h.readFrom, h.readFrom', h.furthest⟩

theorem Abreast.pop {rule : RuleId}
    (h : s.Abreast (rule :: stack) (rule :: stack') f f' run run') :
    s.Abreast stack stack' f f' run.pop run'.pop :=
  ⟨by simp [h.rules], by simp [h.rules'], h.readFrom, h.readFrom', h.furthest⟩

/-- With more depth left a plain derivation ends as it does with less, unless that is cut off. -/
theorem plainly_mirrors {n m : Nat} (hnm : n ≤ m) (stack stack' : List RuleId)
    (f f' : Option Position) :
    s.ResolveAlike (s.Abreast stack stack' f f') (s.plainly m) (s.plainly n) := by
  induction n generalizing m stack stack' with
  | zero => exact fun rule p run run' _ _ => ensures_throw.mpr fun hu => absurd (hu _ rfl) nofun
  | succ n ih =>
      obtain ⟨m, rfl⟩ : ∃ m', m = m' + 1 := ⟨m - 1, by omega⟩
      intro rule p run run' hp hrel
      rw [plainly, plainly]
      split
      · exact .throw hrel
      · next definition hdef =>
          have hhead : (rule :: stack).head? = (rule :: stack').head? := rfl
          have hbody := evaluate_mirrors (Abreast.couples hhead)
            (ih (Nat.le_of_succ_le_succ hnm) (rule :: stack) (rule :: stack')) definition.body {p}
            _ _ (Source.placed_singleton hp) (hrel.push rule)
          exact hbody.framed fun _ _ hrel => hrel.pop

/-- Left alone and not cut off, a plain derivation ends in `result`, having noted failures up to
`latest`. -/
def Concludes (s : Session) (n : Nat) (rule : RuleId) (p : Position)
    (result : Except Failure PathSet) (latest : Option Position) : Prop :=
  Uncut result ∧ Ensures (s.plainly n rule p) {} fun r after => r = result ∧ after.furthest = latest

theorem abreast_of_readFrom (hread : run.lexer.ReadFrom s.source s.source.IsPlace)
    (hread' : run'.lexer.ReadFrom s.source s.source.IsPlace) :
    s.Abreast run.rules run'.rules run.furthest run'.furthest run run' :=
  ⟨rfl, rfl, hread, hread', none, by simp, by simp⟩

variable {n m : Nat} {rule : RuleId} {p : Position} {result result' : Except Failure PathSet}
  {latest latest' : Option Position}

/-- From whichever run it starts, a plain derivation does what it does alone. -/
theorem Concludes.ensures (h : s.Concludes n rule p result latest) (hnm : n ≤ m)
    (hp : s.source.IsPlace p) (hread : run.lexer.ReadFrom s.source s.source.IsPlace) :
    Ensures (s.plainly m rule p) run fun r after => r = result ∧
      after.furthest = furthestOf run.furthest latest ∧ after.rules = run.rules ∧
      after.lexer.ReadFrom s.source s.source.IsPlace ∧
      ∀ out, result = .ok out → s.source.Placed out := by
  have hmirrors := plainly_mirrors hnm _ _ _ _ rule p run {} hp
    (abreast_of_readFrom hread Lexer.readFrom_empty)
  rcases hrun : (s.plainly n rule p).run.run {} with ⟨r, alone⟩
  obtain ⟨rfl, hlatest⟩ := h.2.of_run hrun
  refine Ensures.mono (hmirrors.of_run hrun h.1) fun r' after hpost => ?_
  obtain ⟨hr, hrel, hplaced⟩ := hpost
  obtain ⟨noted, hf, hf'⟩ := hrel.furthest
  have hnoted : noted = latest := by
    rw [← hlatest, hf']
    exact (Furthest.none_left noted).symm
  exact ⟨hr, by rw [hf, hnoted], hrel.rules, hrel.readFrom, hplaced⟩

/-- A plain derivation that is not cut off would end likewise alone. -/
theorem plainly_concludes (n : Nat) (rule : RuleId) (hp : s.source.IsPlace p)
    (hread : run.lexer.ReadFrom s.source s.source.IsPlace) :
    Ensures (s.plainly n rule p) run fun result _ =>
      Uncut result → ∃ latest, s.Concludes n rule p result latest := by
  have hmirrors := plainly_mirrors (Nat.le_refl n) _ _ _ _ rule p {} run hp
    (abreast_of_readFrom Lexer.readFrom_empty hread)
  refine Ensures.mono hmirrors fun result after hx hu => ?_
  exact ⟨((s.plainly n rule p).run.run {}).2.furthest, hu, And.intro (hx hu).1 rfl⟩

theorem Concludes.mono (h : s.Concludes n rule p result latest) (hnm : n ≤ m)
    (hp : s.source.IsPlace p) : s.Concludes m rule p result latest := by
  refine ⟨h.1, Ensures.mono (h.ensures hnm hp Lexer.readFrom_empty) fun _ _ hpost => ?_⟩
  exact ⟨hpost.1, hpost.2.1.trans (Furthest.none_left latest)⟩

/-- Plain derivations that are not cut off end alike, whatever their depths. -/
theorem Concludes.agree (h : s.Concludes n rule p result latest)
    (h' : s.Concludes m rule p result' latest') (hp : s.source.IsPlace p) :
    result' = result ∧ latest' = latest := by
  have hdeep := (h.mono (Nat.le_max_left n m) hp).2
  have hdeep' := (h'.mono (Nat.le_max_right n m) hp).2
  exact ⟨hdeep'.1.symm.trans hdeep.1, hdeep'.2.symm.trans hdeep.2⟩

end Plain
end Session
end Multipath
