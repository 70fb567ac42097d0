import Multipath.Proofs.Runs

/-!
Sound searches, and the search of a terminal. `Search.Sound` is what every search of the evaluator
is shown to be: it keeps a valid run valid, only adds to it, and finds what its postcondition says.
A terminal does no more than read tokens, and it is described exactly.
-/

namespace Multipath

open Search (attempt noPath outcome outputOf readToken)

namespace Run

/-- Only the lexer and the furthest failure may differ, and what was read is still known. -/
structure OnlyReads (run run' : Run) : Prop where
  cache : ∀ (i : Nat) (result : Except LexicalError Token),
    run.lexer.cache[i]? = some result → run'.lexer.cache[i]? = some result
  memo : run'.memo = run.memo
  arena : run'.arena = run.arena
  stats : run'.stats = run.stats

variable {s : Session} {c : Scope s.source} {run run' run'' : Run}

theorem OnlyReads.refl (run : Run) : run.OnlyReads run := ⟨fun _ _ h => h, rfl, rfl, rfl⟩

theorem OnlyReads.trans (h : run.OnlyReads run') (h' : run'.OnlyReads run'') :
    run.OnlyReads run'' where
  cache i result hc := h'.cache i result (h.cache i result hc)
  memo := h'.memo.trans h.memo
  arena := h'.arena.trans h.arena
  stats := h'.stats.trans h.stats

theorem OnlyReads.grows (h : run.OnlyReads run') : run.Grows run' where
  cache := h.cache
  memo p rule finding hm := by rwa [h.memo]
  nodes id x hd := by rwa [h.arena]
  hits := Nat.le_of_eq (by rw [h.stats])

theorem OnlyReads.valid (h : run.OnlyReads run') (hv : run.Valid s c)
    (hread : run'.lexer.ReadFrom s.source c.origin) : run'.Valid s c where
  readFrom := hread
  asked p rule finding hm := by
    rw [h.memo] at hm
    exact hv.asked p rule finding hm
  within id q hq := by
    rw [h.arena] at hq
    exact h.grows.within (hv.within id q hq)
  settled p rule id hm := by
    rw [h.memo] at hm
    rw [h.arena]
    exact hv.settled p rule id hm
  recorded id rule p out hd := by
    rw [h.arena] at hd
    rw [h.memo]
    exact hv.recorded id rule p out hd
  backed id rule p out hd := by
    rw [h.arena] at hd
    obtain ⟨definition, hdef, hleads⟩ := hv.backed id rule p out hd
    refine ⟨definition, hdef, fun q hq => (hleads q hq).mono (fun _ _ => h.grows.reads) ?_⟩
    exact fun _ _ _ => h.grows.settled hv

end Run

/-- `x` keeps a run valid and only adds to it, and what it finds satisfies `post`. -/
def Search.Sound {α : Type} (s : Session) (c : Scope s.source) (x : Search α) (run : Run)
    (post : α → Run → Prop) : Prop :=
  Ensures x run fun result run' =>
    run'.Valid s c ∧ run.Grows run' ∧ ∀ a, result = .ok a → post a run'

namespace Search.Sound

variable {α β : Type} {s : Session} {c : Scope s.source} {run : Run}

theorem pure {a : α} {post : α → Run → Prop} (hv : run.Valid s c) (h : post a run) :
    Sound s c (Pure.pure a) run post :=
  ensures_pure.mpr ⟨hv, .refl run, fun _ hb => Except.ok.inj hb ▸ h⟩

theorem throw {f : Failure} {post : α → Run → Prop} (hv : run.Valid s c) :
    Sound s c (MonadExcept.throw f) run post :=
  ensures_throw.mpr ⟨hv, .refl run, nofun⟩

theorem bind {x : Search α} {f : α → Search β} {middle : α → Run → Prop}
    {post : β → Run → Prop} (h : Sound s c x run middle)
    (hf : ∀ a run', run'.Valid s c → run.Grows run' → middle a run' →
      Sound s c (f a) run' post) : Sound s c (x >>= f) run post := by
  refine ensures_bind.mpr (Ensures.mono h ?_)
  intro result run' hpost
  obtain ⟨hv', hg, hpost⟩ := hpost
  cases result with
  | error f => exact ⟨hv', hg, nofun⟩
  | ok a =>
      refine (hf a run' hv' hg (hpost a rfl)).mono ?_
      intro result run'' hpost
      obtain ⟨hv'', hg', hpost'⟩ := hpost
      exact ⟨hv'', hg.trans hg', hpost'⟩

theorem mono {x : Search α} {post post' : α → Run → Prop} (h : Sound s c x run post)
    (himp : ∀ a run', run'.Valid s c → run.Grows run' → post a run' → post' a run') :
    Sound s c x run post' := by
  refine Ensures.mono h ?_
  intro result run' hpost
  obtain ⟨hv', hg, hpost⟩ := hpost
  exact ⟨hv', hg, fun a ha => himp a run' hv' hg (hpost a ha)⟩

/-- After an attempt, a failure that was borne counts as nothing found. -/
theorem attempt {x : Search α} {post : α → Run → Prop} (h : Sound s c x run post) :
    Sound s c (attempt x) run fun result run' => ∀ a, result = .ok a → post a run' := by
  refine Search.ensures_attempt.mpr (Ensures.mono h ?_)
  intro result run' hpost
  obtain ⟨hv', hg, hpost⟩ := hpost
  cases result with
  | error f =>
      dsimp only
      split
      · exact ⟨hv', hg, nofun⟩
      · exact ⟨hv', hg, nofun⟩
  | ok a =>
      refine ⟨hv', hg, fun result hresult b hb => ?_⟩
      cases hresult
      exact hpost b hb

end Search.Sound

section Reading
variable {s : Session} {c : Scope s.source} {run : Run} {p : Position}

theorem readToken_spec (hv : run.Valid s c) (hp : run.Within c p) :
    Ensures (readToken s.source p) run fun result run' =>
      run'.Valid s c ∧ run.OnlyReads run' ∧
        ∃ r, result = .ok r ∧ run'.lexer.cache[p.index]? = some r := by
  have once := Lexer.next_spec (l := run.lexer.restore p) hv.readFrom (hv.origin_of_within hp)
  have honly : run.OnlyReads
      { run with lexer := ((run.lexer.restore p).next s.source).2 } := ⟨once.kept, rfl, rfl, rfl⟩
  exact Search.ensures_readToken.mpr
    ⟨honly.valid hv once.readFrom, honly, _, rfl, once.remembered⟩

theorem Run.OnlyReads.noteFailure (run : Run) (q : Position) :
    run.OnlyReads (run.noteFailure q) := ⟨fun _ _ h => h, rfl, rfl, rfl⟩

theorem Run.Valid.noteFailure (hv : run.Valid s c) (q : Position) :
    (run.noteFailure q).Valid s c := (OnlyReads.noteFailure run q).valid hv hv.readFrom

/-- A path is moved exactly over a token that has the tag. -/
theorem advance_spec (tag : TagId) (output : PathSet) (hv : run.Valid s c)
    (hp : run.Within c p) :
    Ensures (s.advance tag output p) run fun result run' =>
      run'.Valid s c ∧ run.OnlyReads run' ∧ (∃ r, run'.lexer.cache[p.index]? = some r) ∧
        ∃ out, result = .ok out ∧ ∀ q, q ∈ out ↔ q ∈ output ∨
          ∃ t, run'.Reads p t ∧ t.hasTag tag = true ∧ t.span.stop = q := by
  refine ensures_bind.mpr ((readToken_spec hv hp).mono ?_)
  intro _ run₁ hpost
  obtain ⟨hv₁, honly, r, rfl, hr⟩ := hpost
  -- what was just read is the only token there is at `p`
  have hread (t : Token) : run₁.Reads p t ↔ r = .ok t := by simp [Run.Reads, hr]
  cases r with
  | ok token =>
      dsimp only
      split
      · next htag =>
          refine ensures_pure.mpr ⟨hv₁, honly, ⟨_, hr⟩, _, rfl, fun q => ?_⟩
          simp only [SortedSet.mem_insert, hread, Except.ok.injEq]
          constructor
          · intro h
            obtain rfl | hq := h
            · exact .inr ⟨token, rfl, htag, rfl⟩
            · exact .inl hq
          · intro h
            obtain hq | ⟨t, rfl, -, rfl⟩ := h
            · exact .inr hq
            · exact .inl rfl
      · next htag =>
          refine ensures_bind.mpr (ensures_modify.mpr (ensures_pure.mpr
            ⟨hv₁.noteFailure _, honly.trans (.noteFailure _ _), ⟨_, hr⟩, _, rfl, fun q => ?_⟩))
          refine ⟨.inl, ?_⟩
          intro h
          obtain hq | ⟨t, ht, htag', -⟩ := h
          · exact hq
          · cases (hread t).mp ht
            exact absurd htag' htag
  | error e =>
      refine ensures_bind.mpr (ensures_modify.mpr (ensures_pure.mpr
        ⟨hv₁.noteFailure _, honly.trans (.noteFailure _ _), ⟨_, hr⟩, _, rfl, fun q => ?_⟩))
      refine ⟨.inl, ?_⟩
      intro h
      obtain hq | ⟨t, ht, -⟩ := h
      · exact hq
      · cases (hread t).mp ht

theorem advanceAll_spec (tag : TagId) (ps : List Position) (output : PathSet) (run : Run)
    (hv : run.Valid s c) (hp : ∀ p ∈ ps, run.Within c p) :
    Ensures (ps.foldlM (s.advance tag) output) run fun result run' =>
      run'.Valid s c ∧ run.OnlyReads run' ∧
        (∀ p ∈ ps, ∃ r, run'.lexer.cache[p.index]? = some r) ∧
        ∃ out, result = .ok out ∧ ∀ q, q ∈ out ↔ q ∈ output ∨
          ∃ p ∈ ps, ∃ t, run'.Reads p t ∧ t.hasTag tag = true ∧ t.span.stop = q := by
  induction ps generalizing output run with
  | nil => exact ensures_pure.mpr ⟨hv, .refl run, by simp, output, rfl, by simp⟩
  | cons p ps ih =>
      rw [List.foldlM_cons]
      refine ensures_bind.mpr ((advance_spec tag output hv (hp p (by simp))).mono ?_)
      intro _ run₁ hpost
      obtain ⟨hv₁, honly₁, ⟨r, hr⟩, out₁, rfl, hout₁⟩ := hpost
      refine (ih out₁ run₁ hv₁ fun p' hp' =>
        honly₁.grows.within (hp p' (by simp [hp']))).mono ?_
      intro _ run₂ hpost
      obtain ⟨hv₂, honly₂, hread₂, out₂, rfl, hout₂⟩ := hpost
      -- the entry for `p` is settled by the first reading
      have hsame (t : Token) : run₁.Reads p t ↔ run₂.Reads p t := by
        simp [Run.Reads, hr, honly₂.cache _ _ hr]
      refine ⟨hv₂, honly₁.trans honly₂, ?_, out₂, rfl, fun q => ?_⟩
      · intro p' hp'
        obtain rfl | hp' := List.mem_cons.mp hp'
        · exact ⟨r, honly₂.cache _ _ hr⟩
        · exact hread₂ p' hp'
      · simp only [hout₂, hout₁, hsame, List.mem_cons, or_and_right, exists_or, exists_eq_left,
          or_assoc]

/-- A terminal leads exactly over the tokens that have its tag. -/
theorem terminal_spec (tag : TagId) (input : PathSet) (hv : run.Valid s c)
    (hp : ∀ p ∈ input, run.Within c p) :
    Ensures (s.terminal tag input) run fun result run' =>
      run'.Valid s c ∧ run.OnlyReads run' ∧
        (∀ p ∈ input, ∃ r, run'.lexer.cache[p.index]? = some r) ∧
        match result with
        | .ok out => out ≠ ∅ ∧ ∀ q, q ∈ out ↔
            ∃ p ∈ input, ∃ t, run'.Reads p t ∧ t.hasTag tag = true ∧ t.span.stop = q
        | .error _ => ∀ p ∈ input, ∀ t, run'.Reads p t → t.hasTag tag = false := by
  refine ensures_bind.mpr ((advanceAll_spec tag input.toList ∅ run hv (by simpa using hp)).mono ?_)
  intro _ run' hpost
  obtain ⟨hv', honly, hread, out, rfl, hout⟩ := hpost
  simp only [Std.ExtTreeSet.mem_toList, Std.ExtTreeSet.not_mem_empty, false_or] at hread hout
  dsimp only
  split
  · next hempty =>
      rw [Search.ensures_noPath]
      refine ⟨hv', honly, hread, fun p hp t ht => ?_⟩
      obtain rfl := Std.ExtTreeSet.isEmpty_iff.mp hempty
      cases htag : t.hasTag tag with
      | false => rfl
      | true => exact absurd ((hout t.span.stop).mpr ⟨p, hp, t, ht, htag, rfl⟩) (by simp)
  · next hempty =>
      refine ensures_pure.mpr ⟨hv', honly, hread, ?_, hout⟩
      intro heq
      obtain rfl := heq
      exact hempty Std.ExtTreeSet.isEmpty_empty

end Reading
end Multipath
