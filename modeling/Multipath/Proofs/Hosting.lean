import Multipath.Proofs.Building
import Multipath.Proofs.Occurrences

/-!
Searches, extractions and parses make up no positions: asked at places of the text, on a run that
the text hosts, they come to places only, and what they leave behind is hosted again. An evaluation
gets its positions from tokens and from what references are answered with
(`Session.evaluate_hosted`), and an extraction gets them from evaluations
(`Session.branch_hosted`). So the text hosts what a parse ends in, trees and errors alike
(`hosts_parse`).
-/

namespace Multipath

open Search (attempt noPath outcome outputOf readToken)
open Source
open Extract (ofSearch)

/-- References at places are answered with places. -/
def Resolver.IsHosted (src : Source) (resolve : Resolver) : Prop :=
  ∀ rule p, src.IsPlace p → src.Gives (resolve rule p) src.Hosts

namespace Session

variable {s : Session} {p : Position} {input : PathSet}

theorem readToken_hosted (hp : s.source.IsPlace p) :
    s.source.Gives (readToken s.source p) s.source.Hosts := by
  refine .modifyGet fun run hrun => ?_
  have hparts := hosts_run.mp hrun
  have hread := hosts_prod.mp (hosts_next (hosts_restore hparts.1 hp))
  exact ⟨hread.1, hosts_run.mpr ⟨hread.2, hparts.2⟩⟩

theorem outputOf_hosted (node : NodeId) : s.source.Gives (outputOf node) s.source.Hosts :=
  fun _ hrun => Search.ensures_outputOf.mpr
    ⟨hrun, hosts_output (hosts_run.mp hrun).2.2.1 node⟩

theorem noPath_hosted {α : Type} {post : α → Prop} (hinput : s.source.Hosts input) :
    s.source.Gives (noPath input : Search α) post := by
  refine fun run hrun => Search.ensures_noPath.mpr ⟨hrun, ?_⟩
  change s.source.IsPlace (input.min?.getD .start)
  cases hmin : input.min? with
  | none => exact s.source.isPlace_start
  | some p => exact hinput p (Std.ExtTreeSet.min?_mem hmin)

section Evaluation

theorem advance_hosted {output : PathSet} (tag : TagId) (houtput : s.source.Hosts output)
    (hp : s.source.IsPlace p) : s.source.Gives (s.advance tag output p) s.source.Hosts := by
  have hnote {q : Position} (hq : s.source.IsPlace q) : s.source.Gives (do
      modify (·.noteFailure q)
      pure output : Search PathSet) s.source.Hosts :=
    (Gives.modify fun _ hrun => hosts_noteFailure hrun hq).bind fun _ _ => .pure houtput
  refine (readToken_hosted hp).bind fun result hresult => ?_
  cases result with
  | error e => exact hnote (hosts_lexicalError.mp hresult)
  | ok token =>
      have hspan := hosts_span.mp (hosts_token.mp hresult)
      dsimp only
      split
      · exact .pure (hosts_insert.mpr ⟨hspan.2, houtput⟩)
      · exact hnote hspan.1

theorem terminal_hosted (tag : TagId) (hinput : s.source.Hosts input) :
    s.source.Gives (s.terminal tag input) s.source.Hosts := by
  have hadvances : s.source.Gives (input.toList.foldlM (s.advance tag) ∅) s.source.Hosts :=
    .foldlM hosts_empty fun _ p hp houtput =>
      advance_hosted tag houtput (hinput p (Std.ExtTreeSet.mem_toList.mp hp))
  refine hadvances.bind fun output houtput => ?_
  split
  · exact noPath_hosted hinput
  · exact .pure houtput

theorem unite_hosted (hinput : s.source.Hosts input) {xs : List (Search PathSet)}
    {output : PathSet} {cause : Option Failure} (hxs : ∀ x ∈ xs, s.source.Gives x s.source.Hosts)
    (houtput : s.source.Hosts output) (hcause : s.source.Hosts cause) :
    s.source.Gives (unite input xs output cause) s.source.Hosts := by
  induction xs generalizing output cause with
  | nil =>
      simp only [unite]
      split
      · cases cause with
        | none => exact noPath_hosted hinput
        | some failure => exact .throw (hosts_failure.mp (hosts_some.mp hcause))
      · exact .pure houtput
  | cons x xs ih =>
      rw [List.forall_mem_cons] at hxs
      rw [unite]
      refine hxs.1.attempt.bind fun result hresult => ?_
      cases result with
      | ok paths => exact ih hxs.2 (hosts_union.mpr ⟨houtput, hresult⟩) hcause
      | error failure =>
          exact ih hxs.2 houtput (hosts_some.mpr (hosts_failure.mpr hresult))

theorem saturate_hosted {body : PathSet → Search PathSet}
    (hbody : ∀ paths, s.source.Hosts paths → s.source.Gives (body paths) s.source.Hosts) (n : Nat)
    {frontier result : PathSet} (hfrontier : s.source.Hosts frontier)
    (hresult : s.source.Hosts result) :
    s.source.Gives (saturate body n frontier result) s.source.Hosts := by
  induction n generalizing frontier result with
  | zero => exact .pure hresult
  | succ n ih =>
      rw [saturate]
      refine (hbody frontier hfrontier).attempt.bind fun found hfound => ?_
      cases found with
      | error failure => exact .pure hresult
      | ok output =>
          have hfresh : s.source.Hosts (output \ result) :=
            hosts_of_subset hfound fun _ hp => (Std.ExtTreeSet.mem_diff_iff.mp hp).1
          dsimp only
          split
          · exact .pure hresult
          · exact ih hfresh (hosts_union.mpr ⟨hresult, hfresh⟩)

variable {resolve : Resolver}

mutual

theorem evaluate_hosted (hresolve : resolve.IsHosted s.source) :
    ∀ (rule : Rule) {input : PathSet}, s.source.Hosts input →
      s.source.Gives (s.evaluate resolve rule input) s.source.Hosts
  | .terminal tag, input, hinput => by
      rw [evaluate]
      exact terminal_hosted tag hinput
  | .nonterminal rule, input, hinput => by
      rw [evaluate]
      refine unite_hosted hinput (fun x hx => ?_) hosts_empty hosts_none
      obtain ⟨p, hp, rfl⟩ := List.mem_map.mp hx
      exact hresolve rule p (hinput p (Std.ExtTreeSet.mem_toList.mp hp))
  | .sequence items, input, hinput => by
      rw [evaluate]
      exact evaluateItems_hosted hresolve items hinput
  | .optional body, input, hinput => by
      rw [evaluate]
      refine (evaluate_hosted hresolve body hinput).attempt.bind fun found hfound => ?_
      cases found with
      | ok output => exact .pure (hosts_union.mpr ⟨hinput, hfound⟩)
      | error failure => exact .pure hinput
  | .repetition body, input, hinput => by
      rw [evaluate]
      exact Gives.get.bind fun _ _ =>
        saturate_hosted (fun paths => evaluate_hosted hresolve body) _ hinput hinput
  | .alternation choices, input, hinput => by
      rw [evaluate]
      exact unite_hosted hinput (evaluateChoices_hosted hresolve choices hinput) hosts_empty
        hosts_none
  | .switch feature body, input, hinput => by
      rw [evaluate]
      split
      · exact evaluate_hosted hresolve body hinput
      · exact .pure hinput

theorem evaluateItems_hosted (hresolve : resolve.IsHosted s.source) :
    ∀ (items : List Rule) {input : PathSet}, s.source.Hosts input →
      s.source.Gives (s.evaluateItems resolve items input) s.source.Hosts
  | [], input, hinput => by
      rw [evaluateItems]
      exact .pure hinput
  | item :: items, input, hinput => by
      rw [evaluateItems]
      exact (evaluate_hosted hresolve item hinput).bind fun _ hpaths =>
        evaluateItems_hosted hresolve items hpaths

theorem evaluateChoices_hosted (hresolve : resolve.IsHosted s.source) :
    ∀ (choices : List Rule) {input : PathSet}, s.source.Hosts input →
      ∀ x ∈ s.evaluateChoices resolve choices input, s.source.Gives x s.source.Hosts
  | [], _, _ => by
      rw [evaluateChoices]
      exact nofun
  | choice :: choices, input, hinput => by
      rw [evaluateChoices, List.forall_mem_cons]
      exact ⟨evaluate_hosted hresolve choice hinput, evaluateChoices_hosted hresolve choices hinput⟩

end

theorem consult_hosted (rule : RuleId) (hp : s.source.IsPlace p) {fresh : Search NodeId}
    (hfresh : s.source.Gives fresh fun _ => True) :
    s.source.Gives (consult rule p fresh) fun _ => True := by
  have hhit : s.source.Gives (modify Run.countMemoHit : Search Unit) fun _ => True :=
    .modify fun _ hrun => hosts_run.mpr (hosts_run.mp hrun)
  have hagain : s.source.Gives (modify Run.countLeftRecursion : Search Unit) fun _ => True :=
    .modify fun _ hrun => hosts_run.mpr (hosts_run.mp hrun)
  refine Gives.get.bind fun run hrun => ?_
  have hmemo := hosts_memo.mp (hosts_run.mp hrun).2.1
  split
  · exact hhit.bind fun _ _ => .pure trivial
  · next failure hfound =>
      have hfailure := hosts_failure.mp (hmemo p rule _ hfound).2
      exact hhit.bind fun _ _ => .throw hfailure
  · exact hagain.bind fun _ _ => .throw hp
  · exact hfresh

theorem deriveFresh_hosted (hresolve : resolve.IsHosted s.source) (rule : RuleId)
    (hp : s.source.IsPlace p) :
    s.source.Gives (s.deriveFresh resolve rule p) fun _ => True := by
  unfold deriveFresh
  split
  · exact .throw hp
  · next definition _ =>
      refine (Gives.modify fun _ hrun => hosts_enter hrun hp).bind fun _ _ => ?_
      have hbody := evaluate_hosted hresolve definition.body (hosts_singleton.mpr hp)
      refine hbody.outcome.bind fun found hfound => ?_
      cases found with
      | ok output =>
          exact .modifyGet fun _ hrun => ⟨trivial, hosts_succeed hrun hp hfound⟩
      | error failure =>
          exact (Gives.modify fun _ hrun => hosts_fail hrun hp
            (hosts_failure.mpr hfound)).bind fun _ _ => .throw hfound

theorem deriveWithin_hosted (depth : Nat) (rule : RuleId) (hp : s.source.IsPlace p) :
    s.source.Gives (s.deriveWithin depth rule p) fun _ => True := by
  induction depth generalizing rule p with
  | zero => exact consult_hosted rule hp (.throw hp)
  | succ depth ih =>
      refine consult_hosted rule hp (deriveFresh_hosted (fun r q hq => ?_) rule hp)
      exact (ih r hq).bind fun node _ => outputOf_hosted node

theorem depthLeft_hosted : s.source.Gives s.depthLeft fun _ => True :=
  Gives.get.bind fun _ _ => .pure trivial

theorem derive_hosted (rule : RuleId) (hp : s.source.IsPlace p) :
    s.source.Gives (s.derive rule p) fun _ => True :=
  depthLeft_hosted.bind fun depth _ => deriveWithin_hosted depth rule hp

theorem follow_hosted (rule : Rule) (hinput : s.source.Hosts input) :
    s.source.Gives (s.follow rule input) s.source.Hosts :=
  depthLeft_hosted.bind fun depth _ => evaluate_hosted (fun r _ hq =>
    (deriveWithin_hosted depth r hq).bind fun node _ => outputOf_hosted node) rule hinput

end Evaluation

end Session

namespace Fragment

variable {src : Source} {f : Fragment} {stop p : Position}

/-- A part of a rule that makes up no positions. -/
structure IsHosted (src : Source) (f : Fragment) : Prop where
  reach : ∀ {paths : PathSet} (stop : Position), src.Hosts paths →
    src.Gives (f.reach paths stop) src.Hosts
  build : ∀ {p q : Position}, src.IsPlace p → src.IsPlace q →
    src.Gives (f.build p q) src.Hosts

/-- Fragments between paths that are places. -/
def Lined (src : Source) (steps : List (Fragment × PathSet)) : Prop :=
  ∀ x ∈ steps, x.1.IsHosted src ∧ src.Hosts x.2

theorem IsHosted.reach_singleton (hf : f.IsHosted src) (stop : Position) (hp : src.IsPlace p) :
    src.Gives (f.reach {p} stop) src.Hosts := hf.reach stop (hosts_singleton.mpr hp)

theorem IsHosted.firstBuilt (hf : f.IsHosted src) (hp : src.IsPlace p) {stops : List Position}
    (hstops : src.Hosts stops) : src.Gives (f.firstBuilt p stops) src.Hosts := by
  induction stops with
  | nil => exact .pure hosts_none
  | cons q stops ih =>
      rw [hosts_cons, hosts_position] at hstops
      rw [Fragment.firstBuilt]
      refine (hf.build hp hstops.1).bind fun found hfound => ?_
      cases found with
      | none => exact ih hstops.2
      | some nodes => exact .pure (by simpa using ⟨hstops.1, hosts_some.mp hfound⟩)

theorem hosts_map_append {nodes : List Tree} {rest : Option (List Tree)} (hnodes : src.Hosts nodes)
    (hrest : src.Hosts rest) : src.Hosts (rest.map (nodes ++ ·)) := by
  cases rest with
  | none => exact hosts_none
  | some nodes' => simpa using ⟨hnodes, hosts_some.mp hrest⟩

theorem layers_hosted {fs : List Fragment} (hfs : ∀ f ∈ fs, f.IsHosted src) (stop : Position)
    {paths : PathSet} (hpaths : src.Hosts paths) :
    src.Gives (layers stop fs paths) fun found =>
      ∀ steps, found = some steps → Lined src steps := by
  induction fs generalizing paths with
  | nil => exact .pure (by simp [Lined])
  | cons f fs ih =>
      rw [List.forall_mem_cons] at hfs
      rw [layers]
      refine (hfs.1.reach stop hpaths).bind fun next hnext => ?_
      split
      · refine .pure fun steps heq => ?_
        cases heq
      · refine (ih hfs.2 hnext).bind fun found hfound => .pure fun steps heq => ?_
        obtain ⟨rest, rfl, rfl⟩ := Option.map_eq_some_iff.mp heq
        exact List.forall_mem_cons.mpr ⟨⟨hfs.1, hpaths⟩, hfound rest rfl⟩

theorem IsHosted.keepViable (hf : f.IsHosted src) (stop : Position) (after : PathSet)
    {layer : PathSet} (hlayer : src.Hosts layer) :
    src.Gives (f.keepViable stop after layer) src.Hosts := by
  refine .foldlM hosts_empty fun keep p hp hkeep => ?_
  have hp := hlayer p (Std.ExtTreeSet.mem_toList.mp hp)
  refine (hf.reach_singleton stop hp).bind fun stops _ => .pure ?_
  split
  · exact hosts_insert.mpr ⟨hp, hkeep⟩
  · exact hkeep

theorem prune_hosted (hstop : src.IsPlace stop) {steps : List (Fragment × PathSet)}
    (hsteps : Lined src steps) :
    src.Gives (prune stop steps) fun found => src.Hosts found.1 ∧ Lined src found.2 := by
  induction steps with
  | nil => exact .pure ⟨hosts_singleton.mpr hstop, nofun⟩
  | cons step steps ih =>
      obtain ⟨f, layer⟩ := step
      rw [Lined, List.forall_mem_cons] at hsteps
      rw [prune]
      refine (ih hsteps.2).bind fun found hfound => ?_
      refine (hsteps.1.1.keepViable stop _ hsteps.1.2).bind fun viable hviable =>
        .pure ⟨hviable, ?_⟩
      exact List.forall_mem_cons.mpr ⟨⟨hsteps.1.1, hfound.1⟩, hfound.2⟩

theorem choose_hosted (stop : Position) {steps : List (Fragment × PathSet)}
    (hsteps : Lined src steps) (hp : src.IsPlace p) :
    src.Gives (choose stop steps p) src.Hosts := by
  induction steps generalizing p with
  | nil => exact .pure (by simp)
  | cons step steps ih =>
      obtain ⟨f, after⟩ := step
      rw [Lined, List.forall_mem_cons] at hsteps
      rw [choose]
      refine (hsteps.1.1.reach_singleton stop hp).bind fun stops hstops => ?_
      have hcandidates : src.Hosts (stops.toList.reverse.filter (· ∈ after)) :=
        hosts_list.mpr fun q hq => hosts_position.mpr
          (hosts_pathSet.mp hstops q (by simpa using (List.mem_filter.mp hq).1))
      refine (hsteps.1.1.firstBuilt hp hcandidates).bind fun found hfound => ?_
      cases found with
      | none => exact .pure hosts_none
      | some x =>
          rw [hosts_some, hosts_prod, hosts_position] at hfound
          exact (ih hsteps.2 hfound.1).bind fun rest hrest =>
            .pure (hosts_map_append hfound.2 hrest)

theorem inSequence_hosted {fs : List Fragment} (hfs : ∀ f ∈ fs, f.IsHosted src)
    (hp : src.IsPlace p) (hstop : src.IsPlace stop) :
    src.Gives (inSequence fs p stop) src.Hosts := by
  refine (layers_hosted hfs stop (hosts_singleton.mpr hp)).bind fun found hfound => ?_
  cases found with
  | none => exact .pure hosts_none
  | some before =>
      refine (prune_hosted hstop (hfound before rfl)).bind fun pruned hpruned => ?_
      dsimp only
      split
      · exact choose_hosted stop hpruned.2 hp
      · exact .pure hosts_none

/-- Iterations that lead to places. -/
def Steps.IsHosted (src : Source) (steps : Steps) : Prop := ∀ p, src.Hosts (steps.getD p [])

theorem explore_hosted (hf : f.IsHosted src) (stop : Position) (n : Nat) {pending : List Position}
    {steps : Steps} (hpending : src.Hosts pending) (hsteps : Steps.IsHosted src steps) :
    src.Gives (f.explore stop n pending steps) (Steps.IsHosted src) := by
  induction n generalizing pending steps with
  | zero => exact .pure hsteps
  | succ n ih =>
      rw [explore]
      have hrest : src.Hosts (pending.dropWhile steps.contains) :=
        hosts_list.mpr fun q hq =>
          hosts_list.mp hpending q ((List.dropWhile_sublist steps.contains).subset hq)
      split
      · exact .pure hsteps
      · next p rest heq =>
          rw [heq, hosts_cons, hosts_position] at hrest
          refine (hf.reach_singleton stop hrest.1).bind fun stops hstops => ?_
          have hnext : src.Hosts (stops.toList.filter (p < ·)) :=
            hosts_list.mpr fun q hq => hosts_position.mpr
              (hosts_pathSet.mp hstops q (by simpa using (List.mem_filter.mp hq).1))
          refine ih (hosts_append.mpr ⟨?_, hrest.2⟩) fun q => ?_
          · exact hosts_list.mpr fun q hq => hosts_list.mp hnext q (List.mem_reverse.mp hq)
          · rw [Std.TreeMap.getD_insert]
            split
            · exact hnext
            · exact hsteps q

theorem iterate_hosted (hf : f.IsHosted src) (stop : Position) {steps : Steps}
    (hsteps : Steps.IsHosted src steps) (viable : Std.TreeSet Position) (n : Nat)
    (hp : src.IsPlace p) : src.Gives (f.iterate stop steps viable n p) src.Hosts := by
  induction n generalizing p with
  | zero =>
      refine .pure ?_
      split
      · exact hosts_some.mpr hosts_nil
      · exact hosts_none
  | succ n ih =>
      rw [iterate]
      split
      · exact .pure (hosts_some.mpr hosts_nil)
      · have hcandidates : src.Hosts ((steps.getD p []).reverse.filter viable.contains) :=
          hosts_list.mpr fun q hq =>
            hosts_list.mp (hsteps p) q (List.mem_reverse.mp (List.mem_filter.mp hq).1)
        refine (hf.firstBuilt hp hcandidates).bind fun found hfound => ?_
        cases found with
        | none => exact .pure hosts_none
        | some x =>
            rw [hosts_some, hosts_prod, hosts_position] at hfound
            exact (ih hfound.1).bind fun rest hrest => .pure (hosts_map_append hfound.2 hrest)

theorem inRepetition_hosted (hf : f.IsHosted src) (bound : Nat) (hp : src.IsPlace p) :
    src.Gives (f.inRepetition bound p stop) src.Hosts := by
  rw [inRepetition]
  split
  · exact .pure (hosts_some.mpr hosts_nil)
  · refine (explore_hosted hf stop bound (by simpa using hp) ?_).bind fun steps hsteps => ?_
    · exact fun q => by simp
    · dsimp only
      split
      · exact iterate_hosted hf stop hsteps _ _ hp
      · exact .pure hosts_none

end Fragment

namespace Session

section Extraction

variable {s : Session} {p q : Position} {branch : BranchBuilder}

theorem reach_hosted (rule : Rule) {paths : PathSet} (stop : Position)
    (hpaths : s.source.Hosts paths) : s.source.Gives (s.reach rule paths stop) s.source.Hosts := by
  refine (follow_hosted rule hpaths).attempt.ofSearch.bind fun found hfound => ?_
  cases found with
  | error failure => exact .pure hosts_empty
  | ok stops => exact .pure (hosts_of_subset hfound fun _ hq => (SortedSet.mem_filter.mp hq).1)

theorem buildTerminal_hosted (tag : TagId) (hp : s.source.IsPlace p) (q : Position) :
    s.source.Gives (s.buildTerminal tag p q) s.source.Hosts := by
  refine (readToken_hosted hp).ofSearch.bind fun result hresult => ?_
  cases result with
  | error e => exact .pure hosts_none
  | ok token =>
      dsimp only
      split
      · exact .pure (by simpa using hresult)
      · exact .pure hosts_none

/-- Between places, branches are built that the text hosts. -/
def BranchBuilder.IsHosted (src : Source) (branch : BranchBuilder) : Prop :=
  ∀ rule {p q : Position}, src.IsPlace p → src.IsPlace q → src.Gives (branch rule p q) src.Hosts

theorem buildNonterminal_hosted (hbranch : branch.IsHosted s.source) (rule : RuleId)
    (hp : s.source.IsPlace p) (hq : s.source.IsPlace q) :
    s.source.Gives (s.buildNonterminal branch rule p q) s.source.Hosts := by
  refine (derive_hosted rule hp).attempt.ofSearch.bind fun derived _ => ?_
  cases derived with
  | error failure => exact .pure hosts_none
  | ok node =>
      refine (outputOf_hosted node).ofSearch.bind fun output _ => ?_
      split
      · refine (hbranch rule hp hq).bind fun found hfound => .pure ?_
        cases found with
        | none => exact hosts_none
        | some b => simpa using hfound
      · exact .pure hosts_none

theorem forward_hosted {x : Extract (Option (List Tree))} (hx : s.source.Gives x s.source.Hosts) :
    s.source.Gives (forward p q x) s.source.Hosts := by
  rw [forward]
  split
  · exact .pure hosts_none
  · exact hx

theorem hosts_nothing : s.source.Hosts (nothing p q) := by
  rw [nothing]
  split
  · exact hosts_some.mpr hosts_nil
  · exact hosts_none

mutual

theorem build_hosted (hbranch : branch.IsHosted s.source) : ∀ (rule : Rule) {p q : Position},
    s.source.IsPlace p → s.source.IsPlace q →
      s.source.Gives (s.build branch rule p q) s.source.Hosts
  | .terminal tag, p, q, hp, _ => by
      rw [build]
      exact forward_hosted (buildTerminal_hosted tag hp q)
  | .nonterminal rule, p, q, hp, hq => by
      rw [build]
      exact forward_hosted (buildNonterminal_hosted hbranch rule hp hq)
  | .sequence items, p, q, hp, hq => by
      rw [build]
      exact forward_hosted (Fragment.inSequence_hosted (fragments_hosted hbranch items) hp hq)
  | .optional body, p, q, hp, hq => by
      rw [build]
      refine forward_hosted ((build_hosted hbranch body hp hq).bind fun found hfound => ?_)
      cases found with
      | some nodes => exact .pure hfound
      | none => exact .pure hosts_nothing
  | .repetition body, p, q, hp, _ => by
      rw [build]
      exact forward_hosted (Gives.get.bind fun e _ => Fragment.inRepetition_hosted
        ⟨fun stop => reach_hosted body stop, build_hosted hbranch body⟩ _ hp)
  | .alternation choices, p, q, hp, hq => by
      rw [build]
      exact forward_hosted (buildFirst_hosted hbranch choices hp hq)
  | .switch feature body, p, q, hp, hq => by
      rw [build]
      refine forward_hosted ?_
      split
      · exact build_hosted hbranch body hp hq
      · exact .pure hosts_nothing

theorem buildFirst_hosted (hbranch : branch.IsHosted s.source) :
    ∀ (choices : List Rule) {p q : Position}, s.source.IsPlace p → s.source.IsPlace q →
      s.source.Gives (s.buildFirst branch choices p q) s.source.Hosts
  | [], _, _, _, _ => by
      rw [buildFirst]
      exact .pure hosts_none
  | choice :: choices, p, q, hp, hq => by
      rw [buildFirst]
      refine (build_hosted hbranch choice hp hq).bind fun found hfound => ?_
      cases found with
      | some nodes => exact .pure hfound
      | none => exact buildFirst_hosted hbranch choices hp hq

theorem fragments_hosted (hbranch : branch.IsHosted s.source) :
    ∀ items : List Rule, ∀ f ∈ s.fragments branch items, f.IsHosted s.source
  | [] => by
      rw [fragments]
      exact nofun
  | item :: items => by
      rw [fragments, List.forall_mem_cons]
      exact ⟨⟨fun stop => reach_hosted item stop, build_hosted hbranch item⟩,
        fragments_hosted hbranch items⟩

end

theorem reuse_hosted {stretch : Stretch} {fresh : Extract (Option Branch)}
    (hfresh : s.source.Gives fresh s.source.Hosts) :
    s.source.Gives (reuse stretch fresh) s.source.Hosts := by
  refine Gives.get.bind fun e he => ?_
  have hbuilt := (hosts_extraction.mp he).2.2
  split
  · next b hb => exact .pure (hosts_some.mpr (hbuilt stretch b hb).2)
  · split
    · exact .pure hosts_none
    · exact hfresh

theorem hosts_extraction_enter {e : Extraction} {stretch : Stretch} (he : s.source.Hosts e)
    (hstretch : s.source.Hosts stretch) : s.source.Hosts (e.enter stretch) := by
  have he := hosts_extraction.mp he
  refine hosts_extraction.mpr ⟨he.1, fun other hother => ?_, he.2.2⟩
  simp only [Extraction.enter, Std.TreeSet.mem_insert,
    Std.LawfulEqOrd.compare_eq_iff_eq] at hother
  obtain rfl | hother := hother
  · exact hstretch
  · exact he.2.1 other hother

theorem hosts_extraction_leave {e : Extraction} (he : s.source.Hosts e) (stretch : Stretch) :
    s.source.Hosts (e.leave stretch) := by
  have he := hosts_extraction.mp he
  exact hosts_extraction.mpr
    ⟨he.1, fun other hother => he.2.1 other (Std.TreeSet.mem_erase.mp hother).2, he.2.2⟩

theorem hosts_insert_built {e : Extraction} {stretch : Stretch} {b : Branch}
    (he : s.source.Hosts e) (hstretch : s.source.Hosts stretch) (hb : s.source.Hosts b) :
    s.source.Hosts { e with built := e.built.insert stretch b } := by
  have he := hosts_extraction.mp he
  refine hosts_extraction.mpr ⟨he.1, he.2.1, fun other b' hb' => ?_⟩
  simp only [Std.TreeMap.getElem?_insert, Std.LawfulEqOrd.compare_eq_iff_eq] at hb'
  split at hb'
  · next heq =>
      cases hb'
      exact heq ▸ ⟨hstretch, hb⟩
  · exact he.2.2 other b' hb'

theorem branchFresh_hosted (hbranch : branch.IsHosted s.source) {stretch : Stretch}
    (hstretch : s.source.Hosts stretch) :
    s.source.Gives (s.branchFresh branch stretch) s.source.Hosts := by
  intro e he
  have hplaces := hosts_stretch.mp hstretch
  refine ensures_branchFresh (?_ : Ensures _ _ fun result e' =>
    s.source.Hosts e' ∧ s.source.Settles s.source.Hosts result) (fun failure e' h => ?_)
    (fun e' h => ?_) fun children e' h => ?_
  · have he := hosts_extraction_enter he hstretch
    split
    · exact build_hosted hbranch _ hplaces.1 hplaces.2 _ he
    · exact ensures_pure.mpr ⟨he, hosts_none⟩
  · exact ⟨hosts_extraction_leave h.1 stretch, h.2⟩
  · exact ⟨hosts_extraction_leave h.1 stretch, hosts_none⟩
  · have hb : s.source.Hosts (Branch.mk (s.grammar.name stretch.rule)
        ⟨stretch.start, stretch.stop⟩ children) :=
      hosts_branch.mpr ⟨hosts_span.mpr hplaces, hosts_some.mp h.2⟩
    exact ⟨hosts_insert_built (hosts_extraction_leave h.1 stretch) hstretch hb, hosts_some.mpr hb⟩

theorem branchWithin_hosted (depth : Nat) :
    BranchBuilder.IsHosted s.source fun rule p q => s.branchWithin depth rule p q := by
  induction depth with
  | zero => exact fun rule _ _ hp _ => reuse_hosted (.throw hp)
  | succ depth ih =>
      exact fun rule _ _ hp hq => reuse_hosted (branchFresh_hosted ih (hosts_stretch.mpr ⟨hp, hq⟩))

theorem branch_hosted (rule : RuleId) (hp : s.source.IsPlace p) (hq : s.source.IsPlace q) :
    s.source.Gives (s.branch rule p q) s.source.Hosts :=
  Gives.get.bind fun _ _ => branchWithin_hosted _ rule hp hq

end Extraction

section Parsing

variable {s : Session} {start : Position}

theorem hosts_report {run : Run} (hrun : s.source.Hosts run) (rule : RuleId) {failure : Failure}
    (hfailure : s.source.IsPlace failure.position) :
    s.source.Hosts (s.report run rule failure) := by
  cases failure with
  | depthLimit rule p => exact hosts_parseError.mpr fun _ heq => Option.some.inj heq ▸ hfailure
  | noPath rule p =>
      refine hosts_parseError.mpr fun q heq => Option.some.inj heq ▸ ?_
      exact isPlace_furthest (hosts_run.mp hrun).2.2.2 hfailure

/-- Only that no start rule can be selected is said without a position. -/
theorem hosts_selectStart {conditions : Conditions} {e : ParseError}
    (h : s.grammar.selectStart conditions = .error e) : s.source.Hosts e := by
  unfold Grammar.selectStart at h
  split at h <;> cases h <;> exact nofun

theorem hosts_parse (trailing : Bool) (hstart : s.source.IsPlace start) :
    s.source.Hosts (s.parse trailing start) := by
  unfold parse
  cases hrule : s.grammar.selectStart s.source.conditions with
  | error e => exact hosts_selectStart hrule
  | ok rule =>
      simp only [bind, Except.bind]
      rcases hderive : (s.derive rule start).run.run {} with ⟨failure | root, run⟩
      · obtain ⟨hrun, hfailure⟩ := (derive_hosted rule hstart {} hosts_fresh).of_run hderive
        exact hosts_report hrun rule hfailure
      · obtain ⟨hrun, -⟩ := (derive_hosted rule hstart {} hosts_fresh).of_run hderive
        have houtput := hosts_output (hosts_run.mp hrun).2.2.1 root
        dsimp only
        split
        · refine hosts_parseError.mpr fun q heq =>
            Option.some.inj heq ▸ Source.IsPlace.of_skipIgnored ?_
          cases hmax : (run.arena.output root).max? with
          | none => exact hstart
          | some p => exact houtput p (Std.ExtTreeSet.max?_mem hmax)
        · next stop hwinner =>
            have hstop : s.source.IsPlace stop :=
              houtput stop (SortedSet.mem_filter.mp (Std.ExtTreeSet.max?_mem hwinner)).1
            have hnarrow := hosts_setOutput hrun root (hosts_singleton.mpr hstop)
            have hbranch := branch_hosted rule hstart hstop _ (hosts_renew hnarrow)
            split
            · next failure e heq =>
                obtain ⟨he, hfailure⟩ := hbranch.of_run heq
                exact hosts_report (hosts_extraction.mp he).1 rule hfailure
            · next e heq =>
                obtain ⟨he, -⟩ := hbranch.of_run heq
                exact hosts_report (hosts_extraction.mp he).1 rule hstart
            · next tree e heq =>
                obtain ⟨he, htree⟩ := hbranch.of_run heq
                exact hosts_parsed.mpr
                  ⟨hosts_some.mp htree, (hosts_run.mp (hosts_extraction.mp he).1).2.2.1⟩

end Parsing

end Session
end Multipath
