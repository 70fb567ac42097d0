import Multipath.Proofs.Completeness
import Multipath.Proofs.Matches
import Multipath.Tree.Extraction

/-!
What is true of an extraction at every moment. The branches it has built are instances of their
rules. It promises a match of a rule between two positions if the run has completed derivations
for it that no stretch under way stands in the way of (`Extraction.Clear`): stretches under way
lie around the two positions, and those over the very same text stand for nodes that were
completed later. A function of the extractor may come back without a match only where none was
promised, and it fails for no other reason than the bound on nesting.
-/

namespace Multipath

open Search (attempt outputOf readToken)
open Extract (ofSearch)

section KnownRun
variable {s : Session} {c : Scope s.source}

/-- What a run knew is answered fully by all later ones. -/
def Yardstick.known (s : Session) (c : Scope s.source) (run : Run) : Yardstick s c where
  reads := run.Reads
  spans := run.Known
  inv := run.Grows
  counts _ := True
  counts_of_grows _ _ := trivial
  inv_of_onlyReads honly h := h.trans honly.grows
  reads_eq _ _ hinv ht hr := Option.some.inj (hr.symm.trans (hinv.reads ht))

theorem Yardstick.known_resolves {run₀ : Run} (hv₀ : run₀.Valid s c) (depth : Nat) :
    (Yardstick.known s c run₀).Resolves
      fun rule p => s.deriveWithin depth rule p >>= outputOf := by
  intro rule p run hv hp hinv
  have hsound := Session.resolver_sound (s := s) (c := c) depth rule p run hv hp
  suffices hanswers : Ensures (s.deriveWithin depth rule p >>= outputOf) run
      fun result _ => Answers result (run₀.Known rule p) by
    refine Ensures.mono (hsound.and hanswers) ?_
    intro result run' hpost
    obtain ⟨⟨hv', hg, -⟩, hall⟩ := hpost
    exact ⟨hv', hg, hinv.trans hg, fun _ => hall⟩
  by_cases hknown : ∃ id, run₀.memo.find? p rule = some (.succeeded id)
  · obtain ⟨id, hm⟩ := hknown
    have hlookup := s.deriveWithin_settled depth (hinv.memo _ _ _ hm) (by simp)
    refine ensures_bind.mpr (Ensures.mono hlookup ?_)
    intro result run' hpost
    obtain ⟨rfl, rfl⟩ := hpost
    refine Search.ensures_outputOf.mpr fun q hq => ?_
    obtain ⟨id', -, hm', hq⟩ := hq
    obtain rfl : id' = id := by simpa [hm] using hm'.symm
    rw [← hinv.output hv₀ hm] at hq
    exact hq
  · have hnone (q : Position) : ¬run₀.Known rule p q := by
      intro hq
      obtain ⟨id, -, hm, -⟩ := hq
      exact hknown ⟨id, hm⟩
    unfold Ensures
    cases ((s.deriveWithin depth rule p >>= outputOf).run.run run).1 with
    | ok out => exact fun q hq => absurd hq (hnone q)
    | error f => exact fun _ => hnone

end KnownRun

/-- What matches a rule by what a run has read and derived. -/
abbrev Run.Matches (s : Session) (run : Run) : Rule → Position → Position → List Tree → Prop :=
  s.grammar.Matches run.Reads run.Known

theorem Run.Grows.matches {s : Session} {c : Scope s.source} {run run' : Run}
    (h : run.Grows run') (hv : run.Valid s c) (hv' : run'.Valid s c) {rule : Rule}
    {p q : Position} {ts : List Tree} (hm : run.Matches s rule p q ts) :
    run'.Matches s rule p q ts :=
  hm.mono (fun _ _ => h.reads) (fun _ _ _ => h.known hv hv')

theorem Run.Grows.isInstance {s : Session} {c : Scope s.source} {run run' : Run}
    (h : run.Grows run') (hv : run.Valid s c) (hv' : run'.Valid s c) {rule : RuleId}
    {p q : Position} {b : Branch} (hb : s.grammar.Instance run.Reads run.Known rule p q b) :
    s.grammar.Instance run'.Reads run'.Known rule p q b := by
  obtain ⟨hname, hspan, definition, hdef, hbody⟩ := hb
  exact ⟨hname, hspan, definition, hdef, h.matches hv hv' hbody⟩

namespace Extraction

/-- `e'` knows all that `e` knows, with the same stretches under way. -/
structure Grows (e e' : Extraction) : Prop where
  run : e.run.Grows e'.run
  active : ∀ stretch, stretch ∈ e'.active ↔ stretch ∈ e.active

theorem Grows.refl (e : Extraction) : e.Grows e := ⟨.refl e.run, fun _ => Iff.rfl⟩

theorem Grows.trans {e e' e'' : Extraction} (h : e.Grows e') (h' : e'.Grows e'') : e.Grows e'' :=
  ⟨h.run.trans h'.run, fun stretch => (h'.active stretch).trans (h.active stretch)⟩

structure Valid (s : Session) (c : Scope s.source) (e : Extraction) : Prop where
  run : e.run.Valid s c
  built : ∀ (stretch : Stretch) b, e.built[stretch]? = some b →
    s.grammar.Instance e.run.Reads e.run.Known stretch.rule stretch.start stretch.stop b

/-- No stretch under way bars a match between two positions that rests on the first `n` nodes. -/
def Clear (e : Extraction) (n : Nat) (p q : Position) : Prop :=
  ∀ stretch ∈ e.active, stretch.start.index ≤ p.index ∧ q.index ≤ stretch.stop.index ∧
    (stretch.start.index = p.index → stretch.stop.index = q.index →
      ∃ id, n ≤ id ∧ e.run.memo.find? stretch.start stretch.rule = some (.succeeded id))

/-- A match of the rule is there to be found. -/
def Promises (s : Session) (e : Extraction) (rule : Rule) (p q : Position) : Prop :=
  ∃ n, e.Clear n p q ∧ s.grammar.Leads e.run.Reads (e.run.Settled n) rule p q

variable {s : Session} {c : Scope s.source} {e e' : Extraction}

theorem valid_start {run : Run} (hv : run.Valid s c) : Valid s c { run } :=
  ⟨hv, fun stretch b h => by simp at h⟩

theorem clear_start (run : Run) (n : Nat) (p q : Position) : Clear { run } n p q := by
  intro stretch h
  simp at h

/-- Within a stretch nothing more stands in the way. -/
theorem Clear.inner {n : Nat} {p q p' q' : Position} (h : e.Clear n p q)
    (hp : p.index ≤ p'.index) (hq : q'.index ≤ q.index) : e.Clear n p' q' := by
  intro stretch hmem
  obtain ⟨hstart, hstop, hsame⟩ := h stretch hmem
  refine ⟨by omega, by omega, fun hp' hq' => hsame (by omega) (by omega)⟩

/-- Strictly within a stretch nothing stands in the way at all. -/
theorem Clear.strictly {n : Nat} {p q p' q' : Position} (h : e.Clear n p q)
    (hp : p.index ≤ p'.index) (hq : q'.index ≤ q.index)
    (hne : p.index < p'.index ∨ q'.index < q.index) (n' : Nat) : e.Clear n' p' q' := by
  intro stretch hmem
  obtain ⟨hstart, hstop, -⟩ := h stretch hmem
  refine ⟨by omega, by omega, fun hp' hq' => ?_⟩
  omega

theorem Grows.clear (h : e.Grows e') {n : Nat} {p q : Position} (hc : e.Clear n p q) :
    e'.Clear n p q := by
  intro stretch hmem
  obtain ⟨hstart, hstop, hsame⟩ := hc stretch ((h.active stretch).mp hmem)
  refine ⟨hstart, hstop, fun hp hq => ?_⟩
  obtain ⟨id, hid, hm⟩ := hsame hp hq
  exact ⟨id, hid, h.run.memo _ _ _ hm⟩

theorem Grows.promises (h : e.Grows e') (he : e.Valid s c) {rule : Rule} {p q : Position}
    (hpr : e.Promises s rule p q) : e'.Promises s rule p q := by
  obtain ⟨n, hclear, hleads⟩ := hpr
  exact ⟨n, h.clear hclear, hleads.mono (fun _ _ => h.run.reads) fun _ _ _ => h.run.settled he.run⟩

end Extraction

/-- `x` keeps an extraction valid and only adds to it, gives what its postcondition says, and
fails only for reasons that may not be borne. -/
def Extract.Gives {α : Type} (s : Session) (c : Scope s.source) (x : Extract α) (e : Extraction)
    (post : α → Extraction → Prop) : Prop :=
  Ensures x e fun result e' => e'.Valid s c ∧ e.Grows e' ∧
    match result with
    | .ok a => post a e'
    | .error f => f.isAbsorbable = false

namespace Extract.Gives

variable {α β : Type} {s : Session} {c : Scope s.source} {e : Extraction}

theorem pure {a : α} {post : α → Extraction → Prop} (he : e.Valid s c) (h : post a e) :
    Gives s c (Pure.pure a) e post :=
  ensures_pure.mpr ⟨he, .refl e, h⟩

theorem bind {x : Extract α} {f : α → Extract β} {middle : α → Extraction → Prop}
    {post : β → Extraction → Prop} (h : Gives s c x e middle)
    (hf : ∀ a e', e'.Valid s c → e.Grows e' → middle a e' → Gives s c (f a) e' post) :
    Gives s c (x >>= f) e post := by
  refine ensures_bind.mpr (Ensures.mono h ?_)
  intro result e' hpost
  obtain ⟨he', hg, hmiddle⟩ := hpost
  cases result with
  | error failure => exact ⟨he', hg, hmiddle⟩
  | ok a =>
      refine Ensures.mono (hf a e' he' hg hmiddle) ?_
      intro result e'' hpost
      obtain ⟨he'', hg', hlast⟩ := hpost
      exact ⟨he'', hg.trans hg', hlast⟩

theorem mono {x : Extract α} {post post' : α → Extraction → Prop} (h : Gives s c x e post)
    (himp : ∀ a e', e'.Valid s c → e.Grows e' → post a e' → post' a e') :
    Gives s c x e post' := by
  refine Ensures.mono h ?_
  intro result e' hpost
  obtain ⟨he', hg, hlast⟩ := hpost
  refine ⟨he', hg, ?_⟩
  cases result with
  | error f => exact hlast
  | ok a => exact himp a e' he' hg hlast

end Extract.Gives

section Searching
variable {s : Session} {c : Scope s.source} {e : Extraction}

theorem ensures_ofSearch {α : Type} {x : Search α} {post : Except Failure α → Extraction → Prop} :
    Ensures (ofSearch x) e post ↔
      Ensures x e.run fun result run' => post result { e with run := run' } := by
  unfold ofSearch
  rw [ensures_bind, ensures_modifyGet]
  unfold Ensures
  dsimp only
  rcases x.run.run e.run with ⟨_ | _, _⟩ <;> rfl

/-- A search inside an extraction. -/
theorem gives_ofSearch {α : Type} {x : Search α} {post : α → Extraction → Prop}
    (he : e.Valid s c)
    (h : Ensures x e.run fun result run' => run'.Valid s c ∧ e.run.Grows run' ∧
      match result with
      | .ok a => post a { e with run := run' }
      | .error f => f.isAbsorbable = false) :
    Extract.Gives s c (ofSearch x) e post := by
  refine ensures_ofSearch.mpr (Ensures.mono h ?_)
  intro result run' hpost
  obtain ⟨hv', hg, hlast⟩ := hpost
  exact ⟨⟨hv', fun stretch b hb => hg.isInstance he.run hv' (he.built stretch b hb)⟩,
    ⟨hg, fun _ => Iff.rfl⟩, hlast⟩

/-- An attempted search inside an extraction, of whose failures those to be borne matter. -/
theorem gives_attempt {α : Type} {x : Search α} {post : Except Failure α → Extraction → Prop}
    (he : e.Valid s c)
    (h : Ensures x e.run fun result run' => run'.Valid s c ∧ e.run.Grows run' ∧
      ((∀ f, result = .error f → f.isAbsorbable = true) → post result { e with run := run' })) :
    Extract.Gives s c (ofSearch (attempt x)) e post := by
  refine gives_ofSearch he (Search.ensures_attempt.mpr (Ensures.mono h ?_))
  intro result run' hpost
  obtain ⟨hv', hg, hlast⟩ := hpost
  cases result with
  | ok a => exact ⟨hv', hg, hlast fun f hf => by cases hf⟩
  | error f =>
      dsimp only
      split
      · next hf => exact ⟨hv', hg, hlast fun f' hf' => by cases hf'; exact hf⟩
      · next hf => exact ⟨hv', hg, by simpa using hf⟩

/-- Where a rule leads without passing a limit is found: nothing else, and all that was known. -/
theorem reach_gives (rule : Rule) (paths : PathSet) (stop : Position) (he : e.Valid s c)
    (hwithin : ∀ p ∈ paths, e.run.Within c p) :
    Extract.Gives s c (s.reach rule paths stop) e fun out e' =>
      (∀ q ∈ out, q ≤ stop ∧ ∃ p ∈ paths, e'.run.Leads s rule p q) ∧
        ∀ p ∈ paths, ∀ q, e.run.Leads s rule p q → q ≤ stop → q ∈ out := by
  have hsound := Session.follow_sound rule paths e.run he.run hwithin
  have hcomplete := Yardstick.follow_complete (Yardstick.known_resolves he.run) rule paths e.run
    he.run hwithin (.refl e.run)
  have hattempt : Extract.Gives s c (ofSearch (attempt (s.follow rule paths))) e fun result e' =>
      (∀ out, result = .ok out → ∀ q ∈ out, ∃ p ∈ paths, e'.run.Leads s rule p q) ∧
        ∀ p ∈ paths, ∀ q, e.run.Leads s rule p q → ∃ out, result = .ok out ∧ q ∈ out := by
    refine gives_attempt he (Ensures.mono (hsound.and hcomplete) ?_)
    intro result run' hpost
    obtain ⟨⟨hv', hg, hfound⟩, -, -, -, hall⟩ := hpost
    refine ⟨hv', hg, fun hborne => ⟨fun out hout => (hfound out hout).2, fun p hp q hl => ?_⟩⟩
    cases result with
    | ok out => exact ⟨out, rfl, hall trivial q ⟨p, hp, hl⟩⟩
    | error f => exact absurd ⟨p, hp, hl⟩ (hall trivial (hborne f rfl) q)
  refine hattempt.bind fun result e' he' hg hpost => ?_
  obtain ⟨hfound, hall⟩ := hpost
  cases result with
  | ok out =>
      refine .pure he' ⟨fun q hq => ?_, fun p hp q hl hle => ?_⟩
      · obtain ⟨hq, hle⟩ := SortedSet.mem_filter.mp hq
        exact ⟨by simpa using hle, hfound out rfl q hq⟩
      · obtain ⟨out', hout, hq⟩ := hall p hp q hl
        obtain rfl := Except.ok.inj hout
        exact SortedSet.mem_filter.mpr ⟨hq, by simpa using hle⟩
  | error f =>
      refine .pure he' ⟨fun q hq => absurd hq Std.ExtTreeSet.not_mem_empty, fun p hp q hl _ => ?_⟩
      obtain ⟨out, hout, -⟩ := hall p hp q hl
      cases hout

end Searching
end Multipath
