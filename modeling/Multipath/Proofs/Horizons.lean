import Multipath.Proofs.Budget
import Multipath.Proofs.Checks
import Multipath.Proofs.Closedness

/-!
What a run has noted about its failures, seen from the furthest position that it reaches. No check
succeeds there, or it would reach further; so whatever is asked at that position either ends there
as well or comes to a check that fails, and the failure is noted. A run whose findings account for
this (`Horizon.Holds`) goes on to account for it whatever is evaluated, as long as all checks end
within the horizon: each combinator of the evaluator has one lemma, and what was answered before is
told by the findings. Only two things stand in for a failure noted: that a rule met itself, which
counts, and that the bound on nesting was hit, which no rule absorbs.
-/

namespace Multipath

open Search (attempt noPath outputOf readToken)

namespace Position.Upto

theorem advanceAll (p : Position) (cs : List Char) : p.Upto (p.advanceAll cs) := by
  cases cs with
  | nil => exact .refl p
  | cons c cs =>
      refine .inr ?_
      rw [index_advanceAll, List.length_cons]
      omega

end Position.Upto

namespace Source

variable {src : Source} {start p q : Position}

/-- Where the next token starts, or where reading it fails. -/
def nextStart (src : Source) (p : Position) : Position :=
  match src.token p with
  | .ok t => t.span.start
  | .error e => e.position

theorem upto_nextStart (src : Source) (p : Position) : p.Upto (src.nextStart p) := by
  unfold nextStart
  fun_induction src.token p with
  | case1 p m hm visible _ ih => exact Position.Upto.trans (.inr (scan_accepted hm).1) ih
  | case2 p m hm visible _ => exact .refl p
  | case3 p hm _ => exact .advanceAll p _
  | case4 p hm _ => exact .refl p

theorem nextStart_lt_stop {t : Token} (h : src.token p = .ok t) :
    (src.nextStart p).index < t.span.stop.index := by
  rw [nextStart, h]
  fun_induction src.token p with
  | case1 p m hm visible _ ih => exact ih h
  | case2 p m hm visible _ =>
      cases h
      exact (scan_accepted hm).1
  | case3 => cases h
  | case4 => cases h

theorem OnChain.upto (hp : src.OnChain start p) : start.Upto p := by
  obtain ⟨n, hn⟩ := hp
  exact behind_upto rfl hn (Nat.zero_le n)

/-- Further along the chain the next token is further, too. -/
theorem OnChain.nextStart_le (hp : src.OnChain start p) (hq : src.OnChain start q) (hle : p ≤ q) :
    src.nextStart p ≤ src.nextStart q := by
  obtain ⟨n, hn⟩ := hp
  obtain ⟨m, hm⟩ := hq
  by_cases hnm : n < m
  · -- the token at `p` ends at `q` or before it
    obtain ⟨r, hr⟩ := exists_behind_of_le hm hnm
    obtain ⟨p', t, hp', ht, rfl⟩ := behind_succ_iff.mp hr
    cases hn.symm.trans hp'
    have hnext : (src.nextStart p).Upto t.span.stop := .inr (nextStart_lt_stop ht)
    exact ((hnext.trans (behind_upto hr hm hnm)).trans (upto_nextStart src q)).le
  · obtain rfl : p = q := Position.le_antisymm hle (behind_upto hm hn (Nat.le_of_not_lt hnm)).le
    exact Position.le_refl _

end Source

/-- After a failure is noted, the furthest is that one or the furthest before. -/
theorem Run.furthest_of_noteFailure (run : Run) (p : Position) :
    ∃ f, (run.noteFailure p).furthest = some f ∧ p ≤ f ∧
      (∀ g, run.furthest = some g → g ≤ f) ∧ (f = p ∨ run.furthest = some f) := by
  cases hfurthest : run.furthest with
  | none => exact ⟨p, by simp [noteFailure, hfurthest], Position.le_refl p, nofun, .inl rfl⟩
  | some g =>
      refine ⟨max g p, by simp [noteFailure, hfurthest], Std.right_le_max, ?_, ?_⟩
      · rintro _ ⟨⟩
        exact Std.left_le_max
      · obtain heq | heq := @Std.max_eq_or _ _ _ g p
        · exact .inr (congrArg some heq.symm)
        · exact .inl heq

/-- What a finding says of the paths behind the rule, if it is settled. -/
def Finding.result? (arena : Arena) : Finding → Option (Except Failure PathSet)
  | .inProgress => none
  | .succeeded id => some (.ok (arena.output id))
  | .failed f => some (.error f)

/-- Where a run starts, and a position it does not get beyond. -/
structure Horizon (src : Source) where
  start : Position
  last : Position

namespace Horizon

variable {src : Source} (h : Horizon src)

def Reaches (p : Position) : Prop := src.OnChain h.start p ∧ p ≤ h.last

def Spans (paths : PathSet) : Prop := paths ≠ ∅ ∧ ∀ p ∈ paths, h.Reaches p

/-- A failure behind the last position was noted, unless a rule met itself. -/
def Noted (run : Run) : Prop :=
  run.stats.leftRecursionHits ≠ 0 ∨ ∃ f, run.furthest = some f ∧ src.nextStart h.last ≤ f

/-- The result stays within the horizon, and if the last position was `met`, it is among the paths,
or failing there was noted. -/
def Accounts (run : Run) (met : Prop) : Except Failure PathSet → Prop
  | .ok out => h.Spans out ∧ (met → h.Noted run ∨ h.last ∈ out)
  | .error f => f.position ≤ h.last ∧ (met → h.Noted run ∨ f.isAbsorbable = false)

structure Holds (run : Run) : Prop where
  readFrom : run.lexer.ReadFrom src (src.OnChain h.start)
  noted : ∀ f, run.furthest = some f → ∃ p, h.Reaches p ∧ src.nextStart p = f
  asked : ∀ p rule finding, run.memo.find? p rule = some finding → p ≤ h.last
  settled : ∀ p rule finding result, run.memo.find? p rule = some finding →
    finding.result? run.arena = some result → h.Accounts run (p = h.last) result

/-- The check was made of the token that follows a position within the horizon. -/
def Made (check : Check) : Prop :=
  h.Reaches check.position ∧ check.found = src.token check.position

/-- No check ends beyond the last position. -/
def Bounds (checks : List Check) : Prop :=
  ∀ check ∈ checks, ∀ p, check.stop? = some p → p ≤ h.last

/-- Some check ends at the last position. -/
def Hit (checks : List Check) : Prop := ∃ check ∈ checks, check.stop? = some h.last

/-- A search with these checks accounts for the last position, if that is the furthest end. -/
def Follows (x : Search PathSet) (checks : Run → List Check) (run : Run) (met : Prop) : Prop :=
  h.Bounds (checks run) → (∀ check ∈ checks run, h.Made check) ∧
    Ensures x run fun result run' =>
      h.Holds run' ∧ h.Accounts run' (met ∨ h.Hit (checks run)) result

variable {h} {run run' : Run} {met met' : Prop} {result : Except Failure PathSet}

@[simp] theorem not_hit_nil : ¬h.Hit [] := by simp [Hit]

@[simp] theorem hit_singleton {check : Check} :
    h.Hit [check] ↔ check.stop? = some h.last := by simp [Hit]

@[simp] theorem hit_append {cs cs' : List Check} : h.Hit (cs ++ cs') ↔ h.Hit cs ∨ h.Hit cs' := by
  simp [Hit, or_and_right, exists_or]

@[simp] theorem bounds_append {cs cs' : List Check} :
    h.Bounds (cs ++ cs') ↔ h.Bounds cs ∧ h.Bounds cs' := by
  simp [Bounds, or_imp, forall_and]

theorem Accounts.mono (ha : h.Accounts run met result) (hnoted : h.Noted run → h.Noted run')
    (hmet : met' → met) : h.Accounts run' met' result := by
  cases result with
  | ok out => exact ⟨ha.1, fun hm => (ha.2 (hmet hm)).imp_left hnoted⟩
  | error f => exact ⟨ha.1, fun hm => (ha.2 (hmet hm)).imp_left hnoted⟩

/-- What was noted before counts as accounted for. -/
theorem Accounts.or_noted (ha : h.Accounts run met result) :
    h.Accounts run (h.Noted run ∨ met) result := by
  cases result with
  | ok out => exact ⟨ha.1, fun hm => hm.elim .inl ha.2⟩
  | error f => exact ⟨ha.1, fun hm => hm.elim .inl ha.2⟩

theorem Noted.noteFailure (hnoted : h.Noted run) (p : Position) : h.Noted (run.noteFailure p) := by
  obtain ⟨f, hf, -, hle, -⟩ := run.furthest_of_noteFailure p
  refine hnoted.imp_right fun hnoted => ?_
  obtain ⟨g, hg, hnext⟩ := hnoted
  exact ⟨f, hf, Position.le_trans hnext (hle g hg)⟩

theorem noted_noteFailure (run : Run) : h.Noted (run.noteFailure (src.nextStart h.last)) := by
  obtain ⟨f, hf, hle, -⟩ := run.furthest_of_noteFailure (src.nextStart h.last)
  exact .inr ⟨f, hf, hle⟩

theorem spans_singleton {p : Position} (hp : h.Reaches p) : h.Spans {p} := by
  refine ⟨SortedSet.ne_empty_iff.mpr ⟨p, SortedSet.mem_singleton.mpr rfl⟩, fun q hq => ?_⟩
  rwa [SortedSet.mem_singleton.mp hq]

theorem Spans.union {paths paths' : PathSet} (hpaths : h.Spans paths)
    (hpaths' : ∀ p ∈ paths', h.Reaches p) : h.Spans (paths ∪ paths') := by
  obtain ⟨p, hp⟩ := SortedSet.ne_empty_iff.mp hpaths.1
  refine ⟨SortedSet.ne_empty_iff.mpr ⟨p, Std.ExtTreeSet.mem_union_of_left hp⟩, fun q hq => ?_⟩
  exact (Std.ExtTreeSet.mem_union_iff.mp hq).elim (hpaths.2 q) (hpaths' q)

/-- Where no path is left, the first one there was is named. -/
theorem Spans.first_le {paths : PathSet} (hpaths : h.Spans paths) :
    paths.min?.getD .start ≤ h.last := by
  cases hmin : paths.min? with
  | none => exact absurd (Std.ExtTreeSet.min?_eq_none_iff.mp hmin) hpaths.1
  | some m => exact (hpaths.2 m (Std.ExtTreeSet.min?_mem hmin)).2

namespace Holds

theorem fresh (h : Horizon src) : h.Holds {} where
  readFrom := Lexer.readFrom_empty
  noted f hf := by cases hf
  asked p rule finding hm := by simp [Memo.find?] at hm
  settled p rule finding result hm := by simp [Memo.find?] at hm

/-- Nothing but the lexer, the counters and the failures noted has changed. -/
theorem of_same (hold : h.Holds run) (hmemo : run'.memo = run.memo)
    (harena : run'.arena = run.arena) (hread : run'.lexer.ReadFrom src (src.OnChain h.start))
    (hfurthest : ∀ f, run'.furthest = some f → ∃ p, h.Reaches p ∧ src.nextStart p = f)
    (hnoted : h.Noted run → h.Noted run') : h.Holds run' where
  readFrom := hread
  noted := hfurthest
  asked := by rw [hmemo]; exact hold.asked
  settled p rule finding result hm hresult := by
    rw [hmemo] at hm
    rw [harena] at hresult
    exact (hold.settled p rule finding result hm hresult).mono hnoted id

theorem noteFailure (hold : h.Holds run) {p : Position} (hp : h.Reaches p) :
    h.Holds (run.noteFailure (src.nextStart p)) := by
  refine hold.of_same rfl rfl hold.readFrom (fun g hg => ?_) fun hnoted => hnoted.noteFailure _
  obtain ⟨f, hf, -, -, heq⟩ := run.furthest_of_noteFailure (src.nextStart p)
  cases hf.symm.trans hg
  exact heq.elim (fun heq => ⟨p, hp, heq.symm⟩) (hold.noted g)

theorem read (hold : h.Holds run) {lexer : Lexer}
    (hread : lexer.ReadFrom src (src.OnChain h.start)) : h.Holds { run with lexer } :=
  hold.of_same rfl rfl hread hold.noted id

theorem countMemoHit (hold : h.Holds run) : h.Holds run.countMemoHit :=
  hold.of_same rfl rfl hold.readFrom hold.noted id

theorem countLeftRecursion (hold : h.Holds run) : h.Holds run.countLeftRecursion :=
  hold.of_same rfl rfl hold.readFrom hold.noted fun _ => .inl (Nat.succ_ne_zero _)

/-- Nodes that are added leave what findings say as it is. -/
theorem result?_eq (hold : h.Holds run) {p : Position} {rule : RuleId} {finding : Finding}
    (hm : run.memo.find? p rule = some finding)
    (hnodes : ∀ id x, run.arena.derived? id = some x → run'.arena.derived? id = some x) :
    finding.result? run'.arena = finding.result? run.arena := by
  cases finding with
  | inProgress => rfl
  | failed f => rfl
  | succeeded id =>
      obtain ⟨q, hq⟩ := SortedSet.ne_empty_iff.mp (hold.settled p rule _ _ hm rfl).1.1
      cases hd : run.arena.derived? id with
      | none =>
          rw [Arena.output_eq, hd] at hq
          exact absurd hq Std.ExtTreeSet.not_mem_empty
      | some x =>
          rw [Finding.result?, Finding.result?, Arena.output_of_derived hd,
            Arena.output_of_derived (hnodes id x hd)]

/-- A finding is recorded that accounts for the last position, if it is settled. -/
theorem record (hold : h.Holds run) {p : Position} {rule : RuleId} {finding : Finding}
    (hrec : run.Records run' p rule finding) (hfurthest : run'.furthest = run.furthest)
    (hp : p ≤ h.last) (hresult : ∀ result, finding.result? run'.arena = some result →
      h.Accounts run' (p = h.last) result) : h.Holds run' := by
  have hnoted : h.Noted run → h.Noted run' := by
    rw [Noted, Noted, hrec.hits, hfurthest]
    exact id
  refine ⟨?_, ?_, fun q r found hm => ?_, fun q r found result hm hfound => ?_⟩
  · rw [hrec.lexer]
    exact hold.readFrom
  · rw [hfurthest]
    exact hold.noted
  · rw [hrec.find?] at hm
    split at hm
    · next heq => exact heq.1 ▸ hp
    · exact hold.asked q r found hm
  · rw [hrec.find?] at hm
    split at hm
    · next heq =>
        obtain ⟨rfl, rfl⟩ := heq
        cases hm
        exact hresult result hfound
    · rw [hold.result?_eq hm hrec.nodes] at hfound
      exact (hold.settled q r found result hm hfound).mono hnoted id

end Holds

section Combinators

variable {s : Session} {h : Horizon s.source} {x : Search PathSet} {first : Run → List Check}

theorem Follows.of_imp (hx : h.Follows x first run met) (hmet : met' → met) :
    h.Follows x first run met' := by
  intro hbounds
  obtain ⟨hmade, hpost⟩ := hx hbounds
  exact ⟨hmade, hpost.mono fun _ _ hpost => ⟨hpost.1, hpost.2.mono id (Or.imp_left hmet)⟩⟩

/-- Nothing is checked after a search. -/
theorem Follows.of_checksBind_nil {α : Type} {y : Search α}
    (hx : h.Follows x (y.checksBind first fun _ _ => []) run met) : h.Follows x first run met := by
  unfold Follows at hx
  rwa [Search.checksBind_nil] at hx

theorem follows_pure (hold : h.Holds run) {paths : PathSet} (hpaths : h.Spans paths)
    (hmet : met → h.Noted run ∨ h.last ∈ paths) :
    h.Follows (pure paths) (fun _ => []) run met := by
  intro _
  refine ⟨nofun, ensures_pure.mpr ⟨hold, hpaths, ?_⟩⟩
  rintro (hm | hhit)
  · exact hmet hm
  · exact absurd hhit not_hit_nil

/-- A search goes on from a result that `first` checks led to, which accounts for what was met. -/
theorem follows_after {α : Type} {y : Search α} {f : α → Search PathSet}
    {next : α → Run → List Check} {a : α} (hrun : y.run.run run = (.ok a, run'))
    (hmade : ∀ check ∈ first run, h.Made check) (hf : h.Follows (f a) (next a) run' met')
    (hmet : met ∨ h.Hit (first run) → met') (hbounds : h.Bounds (y.checksBind first next run)) :
    (∀ check ∈ y.checksBind first next run, h.Made check) ∧
      Ensures (y >>= f) run fun result after => h.Holds after ∧
        h.Accounts after (met ∨ h.Hit (y.checksBind first next run)) result := by
  rw [Search.checksBind_of_ok hrun] at hbounds ⊢
  obtain ⟨hmade', hpost⟩ := hf (bounds_append.mp hbounds).2
  refine ⟨List.forall_mem_append.mpr ⟨hmade, hmade'⟩, ensures_bind.mpr (Ensures.of_eq hrun ?_)⟩
  refine hpost.mono fun result after hpost => ⟨hpost.1, hpost.2.mono id ?_⟩
  rw [hit_append, ← or_assoc]
  exact Or.imp_left hmet

theorem Bounds.of_checksBind {α : Type} {y : Search α} {next : α → Run → List Check}
    (hbounds : h.Bounds (y.checksBind first next run)) : h.Bounds (first run) :=
  (bounds_append.mp hbounds).1

/-- One search and another that goes on from the paths found. -/
theorem Follows.bind {f : PathSet → Search PathSet} {next : PathSet → Run → List Check}
    (hx : h.Follows x first run met)
    (hf : ∀ out run', h.Holds run' → h.Spans out →
      h.Follows (f out) (next out) run' (h.Noted run' ∨ h.last ∈ out)) :
    h.Follows (x >>= f) (x.checksBind first next) run met := by
  intro hbounds
  obtain ⟨hmade, hpost⟩ := hx hbounds.of_checksBind
  rcases hrun : x.run.run run with ⟨e | out, run'⟩
  · rw [Search.checksBind_of_error hrun]
    exact ⟨hmade, ensures_bind.mpr (Ensures.of_eq hrun (hpost.of_run hrun))⟩
  · obtain ⟨hold, hspans, hmet⟩ := hpost.of_run hrun
    exact follows_after hrun hmade (hf out run' hold hspans) hmet hbounds

/-- An attempt and what goes on from it, whether it succeeds or not. What was met elsewhere is
taken along. -/
theorem Follows.attempt_bind {f : Except Failure PathSet → Search PathSet}
    {next : Except Failure PathSet → Run → List Check} (met' : Prop)
    (hx : h.Follows x first run met)
    (hok : ∀ out run', h.Holds run' → h.Spans out →
      h.Follows (f (.ok out)) (next (.ok out)) run' (h.Noted run' ∨ h.last ∈ out ∨ met'))
    (herror : ∀ e run', h.Holds run' → e.position ≤ h.last →
      h.Follows (f (.error e)) (next (.error e)) run' (h.Noted run' ∨ met')) :
    h.Follows (attempt x >>= f) ((attempt x).checksBind first next) run (met ∨ met') := by
  intro hbounds
  obtain ⟨hmade, hpost⟩ := hx hbounds.of_checksBind
  rcases hrun : x.run.run run with ⟨e | out, run'⟩
  · obtain ⟨hold, hle, hmet⟩ := hpost.of_run hrun
    cases he : e.isAbsorbable with
    | true =>
        refine follows_after (Search.attempt_of_absorbable hrun he) hmade
          (herror e run' hold hle) ?_ hbounds
        grind
    | false =>
        have hattempt := Search.attempt_of_not_absorbable hrun he
        rw [Search.checksBind_of_error hattempt]
        refine ⟨hmade, ensures_bind.mpr (Ensures.of_eq hattempt ⟨hold, hle, fun _ => .inr he⟩)⟩
  · obtain ⟨hold, hspans, hmet⟩ := hpost.of_run hrun
    refine follows_after (Search.attempt_of_ok hrun) hmade (hok out run' hold hspans) ?_ hbounds
    grind

end Combinators

end Horizon
end Multipath
