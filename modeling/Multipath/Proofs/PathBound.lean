import Multipath.Proofs.Derivations

/-!
How many paths a search can add. Whatever a run gets to is given to it, stands in the output of a
node it had before, or ends a token, and at most one token is read at an index; so
`Session.pathBound` is more than the number of paths that are new.
-/

namespace Multipath

theorem SortedSet.nodup_toList {α : Type} [Ord α] [Std.TransOrd α] [Std.LawfulEqOrd α]
    (s : SortedSet α) : s.toList.Nodup :=
  Std.ExtTreeSet.distinct_toList.imp fun hne heq =>
    hne (Std.LawfulEqOrd.compare_eq_iff_eq.mpr heq)

/-- The same origins, and another base among them. -/
def Scope.withBase {src : Source} (c : Scope src) (base : Position → Prop)
    (h : ∀ p, base p → c.origin p) : Scope src where
  origin := c.origin
  base := base
  origin_of_base := h
  origin_of_token := c.origin_of_token

namespace Run

variable {s : Session} {c : Scope s.source} {run run' : Run}

/-- The ends of all tokens read, by the index at which they were read. -/
def tokenStops (run : Run) (src : Source) : List Position :=
  (List.range src.length).filterMap fun (i : Nat) =>
    match run.lexer.cache[i]? with
    | some (Except.ok t) => some t.span.stop
    | _ => none

theorem length_tokenStops_le (run : Run) (src : Source) :
    (run.tokenStops src).length ≤ src.length := by
  unfold tokenStops
  exact Nat.le_trans (List.length_filterMap_le _ _) (Nat.le_of_eq List.length_range)

theorem Valid.mem_tokenStops (hv : run.Valid s c) {q : Position} (h : run.Stops q) :
    q ∈ run.tokenStops s.source := by
  obtain ⟨p, t, ht, rfl⟩ := h
  have := hv.reads_index_lt ht
  refine List.mem_filterMap.mpr ⟨p.index, List.mem_range.mpr (by omega), ?_⟩
  rw [show run.lexer.cache[p.index]? = some (.ok t) from ht]

/-- What a search from `input` may rest on: the input and the paths of the nodes there are. -/
def Fund (run : Run) (input : PathSet) (p : Position) : Prop := p ∈ input ∨ p ∈ run.arena.paths

theorem Valid.origin_of_fund (hv : run.Valid s c) {input : PathSet}
    (hwithin : ∀ p ∈ input, run.Within c p) {p : Position} (h : run.Fund input p) :
    c.origin p := by
  obtain h | h := h
  · exact hv.origin_of_within (hwithin p h)
  · obtain ⟨n, hn, hp⟩ := List.mem_flatMap.mp h
    obtain ⟨id, hid⟩ := List.mem_iff_getElem?.mp hn
    refine hv.origin_of_within (hv.within id p ?_)
    rw [Array.getElem?_toList] at hid
    simpa [Arena.output, Arena.node?, hid] using Std.ExtTreeSet.mem_toList.mp hp

/-- The scope in which a search starts from `input` and what the run has. -/
def Valid.scope (hv : run.Valid s c) {input : PathSet} (hwithin : ∀ p ∈ input, run.Within c p) :
    Scope s.source :=
  c.withBase (run.Fund input) fun _ h => hv.origin_of_fund hwithin h

theorem Valid.valid_scope (hv : run.Valid s c) {input : PathSet}
    (hwithin : ∀ p ∈ input, run.Within c p) : run.Valid s (hv.scope hwithin) where
  readFrom := hv.readFrom
  asked := hv.asked
  within _ _ hq := .inl (.inr (Arena.mem_paths hq))
  settled := hv.settled
  recorded := hv.recorded
  backed := hv.backed

theorem Valid.within_scope (hv : run.Valid s c) {input : PathSet}
    (hwithin : ∀ p ∈ input, run.Within c p) :
    ∀ p ∈ input, run.Within (hv.scope hwithin) p := fun _ hp => .inl (.inl hp)

/-- A later run gets to few positions beyond the input. -/
theorem Valid.length_lt_of_within (hv : run.Valid s c) {input : PathSet}
    (hwithin : ∀ p ∈ input, run.Within c p) (hv' : run'.Valid s (hv.scope hwithin))
    {ps : List Position} (hnodup : ps.Nodup)
    (hps : ∀ q ∈ ps, run'.Within (hv.scope hwithin) q) :
    ps.length < input.size + s.pathBound run := by
  have hsub : ps ⊆ input.toList ++ run.arena.paths ++ run'.tokenStops s.source := by
    intro q hq
    simp only [List.mem_append, Std.ExtTreeSet.mem_toList]
    exact (hps q hq).imp_right hv'.mem_tokenStops
  have hlength := hnodup.length_le_of_subset hsub
  have hstops := length_tokenStops_le run' s.source
  simp only [List.length_append, Std.ExtTreeSet.length_toList, Arena.length_paths] at hlength
  unfold Session.pathBound
  omega

end Run

/-- A rule is evaluated to fewer new paths than the bound on repetitions allows for. -/
theorem Session.evaluate_size_lt {s : Session} {c : Scope s.source} {run : Run}
    {resolve : Resolver} (hres : ∀ c, s.SoundResolver c resolve) (rule : Rule)
    (input : PathSet) (hv : run.Valid s c) (hwithin : ∀ p ∈ input, run.Within c p) :
    Ensures (s.evaluate resolve rule input) run fun result _ =>
      ∀ out, result = .ok out → out.size < input.size + s.pathBound run := by
  have hsound := evaluate_sound (hres (hv.scope hwithin)) rule input run (hv.valid_scope hwithin)
    (hv.within_scope hwithin)
  refine Ensures.mono hsound ?_
  intro result run' hpost out hout
  obtain ⟨hv', hg, hfound⟩ := hpost
  rw [← Std.ExtTreeSet.length_toList]
  refine hv.length_lt_of_within hwithin hv' out.nodup_toList fun q hq => ?_
  obtain ⟨p, hp, hl⟩ := (hfound out hout).2 q (Std.ExtTreeSet.mem_toList.mp hq)
  exact hv'.leads_within hl (hg.within (hv.within_scope hwithin p hp))

end Multipath
