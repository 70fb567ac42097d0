import Mathlib.Data.List.Forall2
import Multipath.Proofs.Documents
import Multipath.Proofs.Productions

/-!
What the drawings of trees tell. A drawing has one line for each node, outer nodes first, and what
stands in front of the node's sign tells how deep the node is and whether it is the last child
(`Tree.nodes_legible`): the lines below a node are those whose margins are wider than its own. So a
drawing without spans tells the outline of its tree, in which texts are cut off where the drawing
does it, as long as names are words.
-/

namespace Multipath

namespace Text

def escapes : Escapes where
  letters := [('"', '"'), ('\\', '\\'), ('\n', 'n'), ('\r', 'r'), ('\t', 't'), ('\x00', '0')]
  Coded _ := True
  code c := '\x7b' :: (Nat.toDigits 16 c.toNat ++ ['\x7d'])

/-- Digits are neither line ends nor curly brackets. -/
theorem digit_ne {c : Char} {n : Nat} (hc : c ∈ Nat.toDigits 16 n) : c ≠ '\n' ∧ c ≠ '\x7d' := by
  obtain ⟨d, hd, rfl⟩ := digitChar_of_mem_toDigits (by decide) hc
  have hdigits : ∀ d < 16, Nat.digitChar d ≠ '\n' ∧ Nat.digitChar d ≠ '\x7d' := by decide
  exact hdigits d hd

theorem escapes_sound : escapes.Sound where
  letter := by decide
  notCode := by decide
  code c d s t _ _ h := by
    simp only [escapes, List.cons_append, List.append_assoc, List.nil_append, List.cons.injEq,
      true_and] at h
    have hread := append_inj_of_head (· ≠ '\x7d') (fun c hc => (digit_ne hc).2)
      (fun c hc => (digit_ne hc).2) (by simp) (by simp) h
    exact ⟨Char.toNat_inj.mp (toDigits_inj 16 (by decide) (by decide) hread.1),
      (List.cons.inj hread.2).2⟩

theorem escape_writes (c : Char) : escapes.Writes c (escape c) := by
  unfold escape
  split
  case h_7 =>
    split_ifs
    · exact .coded trivial
    · exact .plain ‹_› ‹_›
  all_goals exact .letter (by decide)

theorem quote_legible {a b : String} {s t : List Char}
    (h : (quote a).toList ++ s = (quote b).toList ++ t) : a = b ∧ s = t := by
  simp only [quote, String.toList_ofList, List.append_assoc, List.cons_append,
    List.nil_append] at h
  have hread := escapes_sound.read_quoted escape_writes (by simpa using h)
  exact ⟨String.toList_inj.mp hread.1, hread.2⟩

theorem newline_notMem_escape (c : Char) : '\n' ∉ escape c := by
  unfold escape
  split
  case h_7 =>
    split_ifs
    · have hdigits : '\n' ∉ Nat.toDigits 16 c.toNat := fun h => (digit_ne h).1 rfl
      simpa [codePoint] using hdigits
    · simpa using fun h => ‹¬c = '\n'› h.symm
  all_goals decide

theorem newline_notMem_quote (s : String) : '\n' ∉ (quote s).toList := by
  simpa [quote] using fun c _ => newline_notMem_escape c

end Text

/-- A word that does not run into what is drawn around it. -/
def IsName (name : String) : Prop := name ≠ "" ∧ ∀ c ∈ name.toList, ¬c.isWhitespace ∧ c ≠ '|'

instance (name : String) : Decidable (IsName name) :=
  have : Decidable (∀ c ∈ name.toList, ¬c.isWhitespace ∧ c ≠ '|') := List.decidableBAll _ _
  inferInstanceAs (Decidable (_ ∧ _))

theorem IsName.ne {name : String} {c : Char} (h : IsName name) (hc : c ∈ name.toList) :
    c ≠ ' ' ∧ c ≠ '\n' ∧ c ≠ '|' := by
  have hword := h.2 c hc
  refine ⟨?_, ?_, hword.2⟩ <;>
    exact fun heq => hword.1 (heq ▸ rfl)

namespace Tree

mutual

/-- The names of rules and tags in a tree. -/
def names : Tree → List String
  | .leaf l => l.tags
  | .branch rule _ children => rule :: namesAll children

def namesAll : List Tree → List String
  | [] => []
  | t :: ts => names t ++ namesAll ts

end

mutual

/-- The nodes of a tree, outer ones first. -/
def nodes : Tree → List Tree
  | .leaf l => [.leaf l]
  | .branch rule span children => .branch rule span children :: nodesAll children

def nodesAll : List Tree → List Tree
  | [] => []
  | t :: ts => nodes t ++ nodesAll ts

end

def children : Tree → List Tree
  | .leaf _ => []
  | .branch _ _ children => children

def label : Tree → String
  | .leaf l => leafLabel l
  | .branch rule _ _ => branchLabel rule

/-- In front of the sign of a node. -/
def connector (last : Bool) : String := if last then "└─ " else "├─ "

/-- In front of the children of a node, one level further in. -/
def step (last : Bool) : String := if last then "  " else "│ "

/-- All names in the tree are words. -/
def IsNamed (t : Tree) : Prop := ∀ name ∈ t.names, IsName name

theorem rows_eq (indent : String) (last : Bool) (t : Tree) : rows false indent last t =
    (indent ++ connector last ++ t.label) :: rowsAll false (indent ++ step last) t.children := by
  cases t <;> simp [rows, rowsAll, spanSuffix, connector, step, label, children]

theorem mem_namesAll {name : String} {ts : List Tree} :
    name ∈ namesAll ts ↔ ∃ t ∈ ts, name ∈ t.names := by
  induction ts with
  | nil => simp [namesAll]
  | cons t ts ih => simp [namesAll, ih]

theorem isNamed_branch {rule : String} {span : Span} {children : List Tree} :
    (branch rule span children).IsNamed ↔ IsName rule ∧ ∀ t ∈ children, t.IsNamed := by
  simp only [IsNamed, names, List.forall_mem_cons, mem_namesAll]
  exact and_congr_right fun _ => ⟨fun h t ht name hname => h name ⟨t, ht, hname⟩,
    fun h name ⟨t, ht, hname⟩ => h t ht name hname⟩

theorem isNamed_children {t : Tree} (h : t.IsNamed) : ∀ t' ∈ t.children, t'.IsNamed := by
  cases t with
  | leaf => nofun
  | branch => exact (isNamed_branch.mp h).2

theorem toList_leafLabel (l : Leaf) : (leafLabel l).toList = '◦' :: ' ' ::
    (['|'].intercalate (l.tags.map String.toList) ++
      ' ' :: (Text.quote (truncate 30 l.text)).toList) := by
  simp [leafLabel, String.toList_intercalate]

theorem toList_branchLabel (rule : String) :
    (branchLabel rule).toList = '§' :: ' ' :: rule.toList := by
  simp [branchLabel]

/-- Tags are told by what is written for all of them. -/
theorem tags_legible {tags tags' : List String} (h : ∀ tag ∈ tags, IsName tag)
    (h' : ∀ tag ∈ tags', IsName tag)
    (heq : ['|'].intercalate (tags.map String.toList) =
      ['|'].intercalate (tags'.map String.toList)) : tags = tags' := by
  have hne {tag : String} {tags : List String} (htags : ∀ t ∈ tag :: tags, IsName t) :
      [] ≠ ['|'].intercalate ((tag :: tags).map String.toList) := by
    have hfirst := (htags tag List.mem_cons_self).1
    simp [Script.intercalate_cons, hfirst]
  cases tags with
  | nil =>
      cases tags' with
      | nil => rfl
      | cons tag' tags' => exact absurd heq (hne h')
  | cons tag tags =>
      cases tags' with
      | nil => exact absurd heq.symm (hne h)
      | cons tag' tags' =>
          have hsplit {ts : List String} (hts : ∀ t ∈ ts, IsName t) :
              ∀ cs ∈ ts.map String.toList, '|' ∉ cs := by
            simpa using fun t ht hc => ((hts t ht).ne hc).2.2 rfl
          have hlists := congrArg (List.splitOn '|') heq
          rw [List.splitOn_intercalate _ (hsplit h) (by simp),
            List.splitOn_intercalate _ (hsplit h') (by simp)] at hlists
          exact List.map_injective_iff.mpr (fun _ _ => String.toList_inj.mp) hlists

theorem leafLabel_legible {l l' : Leaf} (h : ∀ tag ∈ l.tags, IsName tag)
    (h' : ∀ tag ∈ l'.tags, IsName tag) (heq : leafLabel l = leafLabel l') :
    l.tags = l'.tags ∧ truncate 30 l.text = truncate 30 l'.text := by
  have hspaces {tags : List String} (htags : ∀ tag ∈ tags, IsName tag) :
      ' ' ∉ ['|'].intercalate (tags.map String.toList) := by
    refine notMem_intercalate (by decide) ?_
    simpa using fun tag htag hc => ((htags tag htag).ne hc).1 rfl
  rw [← String.toList_inj, toList_leafLabel, toList_leafLabel] at heq
  obtain ⟨htags, htext⟩ := append_inj_of_head (· ≠ ' ')
    (fun c hc heq => hspaces h (heq ▸ hc)) (fun c hc heq => hspaces h' (heq ▸ hc)) (by simp)
    (by simp) (List.cons.inj (List.cons.inj heq).2).2
  refine ⟨tags_legible h h' htags, ?_⟩
  exact (Text.quote_legible (congrArg (· ++ []) (List.cons.inj htext).2)).1

/-- A node is told by its label, where the outlines of its children are known. -/
theorem outline_eq {t t' : Tree} (h : t.IsNamed) (h' : t'.IsNamed) (hlabel : t.label = t'.label)
    (hchildren : outlineAll (truncate 30) t.children = outlineAll (truncate 30) t'.children) :
    t.outline (truncate 30) = t'.outline (truncate 30) := by
  have hsigns (l : Leaf) (rule : String) : leafLabel l ≠ branchLabel rule := by
    rw [ne_eq, ← String.toList_inj, toList_leafLabel, toList_branchLabel]
    simp
  cases t with
  | leaf l =>
      cases t' with
      | leaf l' =>
          obtain ⟨htags, htext⟩ := leafLabel_legible h h' hlabel
          rw [outline, outline, htags, htext]
      | branch rule' => exact absurd hlabel (hsigns l rule')
  | branch rule span children =>
      cases t' with
      | leaf l' => exact absurd hlabel.symm (hsigns l' rule)
      | branch rule' span' children' =>
          rw [label, label, ← String.toList_inj, toList_branchLabel, toList_branchLabel] at hlabel
          have hrule := String.toList_inj.mp (List.cons.inj (List.cons.inj hlabel).2).2
          rw [outline, outline, hrule]
          exact congrArg _ hchildren

/-- Each node has its sign at the begin of the label. -/
theorem label_opens (t : Tree) : ∃ c u, t.label.toList = c :: u ∧ (c = '§' ∨ c = '◦') := by
  cases t with
  | leaf l => exact ⟨_, _, toList_leafLabel l, .inr rfl⟩
  | branch rule => exact ⟨_, _, toList_branchLabel rule, .inl rfl⟩

/-- What the margins of drawings are made of. -/
def drawn : List Char := [' ', '│', '├', '└', '─']

def IsMargin (front : String) : Prop := ∀ c ∈ front.toList, c ∈ drawn

instance (front : String) : Decidable (IsMargin front) := List.decidableBAll _ _

theorem isMargin_empty : IsMargin "" := nofun

theorem isMargin_append {s s' : String} : IsMargin (s ++ s') ↔ IsMargin s ∧ IsMargin s' := by
  simp [IsMargin, or_imp, forall_and]

theorem isMargin_connector : ∀ last, IsMargin (connector last) := by decide

theorem isMargin_step : ∀ last, IsMargin (step last) := by decide

theorem length_connector : ∀ last, (connector last).length = 3 := by decide

theorem length_step : ∀ last, (step last).length = 2 := by decide

/-- How wide the margin of a line is. -/
def margin (line : String) : Nat := (line.toList.takeWhile (· ∈ drawn)).length

theorem margin_append {front : String} (hfront : IsMargin front) (t : Tree) :
    margin (front ++ t.label) = front.length := by
  obtain ⟨c, u, hu, hc⟩ := t.label_opens
  have hsign : c ∉ drawn := by
    obtain rfl | rfl := hc <;> decide
  rw [margin, String.toList_append, hu,
    List.takeWhile_append_of_pos (by simpa [IsMargin] using hfront),
    List.takeWhile_cons_of_neg (by simpa using hsign), List.append_nil, String.length_toList]

/-- The children as they are drawn, each with whether it is the last. -/
def flagged : List Tree → List (Bool × Tree)
  | [] => []
  | t :: ts => (ts.isEmpty, t) :: flagged ts

/-- The lines of nodes behind an indentation, up to a line with no wider margin than theirs. -/
def nodeScript (indent : String) : Script String (Bool × Tree) (Bool × Outline) where
  write x := rows false indent x.1 x.2
  shows x := (x.1, x.2.outline (truncate 30))
  Kind x := x.2.IsNamed
  Rest s := ∀ line ∈ s.head?, margin line ≤ indent.length + 3

theorem rowsAll_eq (indent : String) (ts : List Tree) :
    rowsAll false indent ts = (flagged ts).flatMap (nodeScript indent).write := by
  induction ts with
  | nil => rfl
  | cons t ts ih => simp [rowsAll, flagged, nodeScript, ih]

theorem mem_flagged {x : Bool × Tree} {ts : List Tree} (hx : x ∈ flagged ts) : x.2 ∈ ts := by
  induction ts with
  | nil => cases hx
  | cons t ts ih =>
      cases hx with
      | head => exact List.mem_cons_self
      | tail _ hx => exact List.mem_cons_of_mem t (ih hx)

theorem outlineAll_eq (indent : String) (ts : List Tree) : outlineAll (truncate 30) ts =
    ((flagged ts).map (nodeScript indent).shows).map Prod.snd := by
  induction ts with
  | nil => rfl
  | cons t ts ih => simp [outlineAll, flagged, nodeScript, ih]

theorem margin_row {indent : String} (hindent : IsMargin indent) (last : Bool) (t : Tree) :
    margin (indent ++ connector last ++ t.label) = indent.length + 3 := by
  rw [margin_append (isMargin_append.mpr ⟨hindent, isMargin_connector last⟩), String.length_append,
    length_connector]

theorem head?_write (indent : String) (x : Bool × Tree) (s : List String) :
    ((nodeScript indent).write x ++ s).head? = some (indent ++ connector x.1 ++ x.2.label) := by
  simp only [nodeScript, rows_eq]
  rfl

/-- Lines that may follow a node end the lines of its children. -/
theorem ends_of_rest {indent : String} (hindent : IsMargin indent) (last : Bool) {s : List String}
    (hs : (nodeScript indent).Rest s) : (nodeScript (indent ++ step last)).Ends [] s := by
  have hlength : (indent ++ step last).length = indent.length + 2 := by
    rw [String.length_append, length_step]
  refine ⟨fun line hline => ?_, fun y u _ heq => ?_⟩
  · have := hs line hline
    omega
  · have hfirst := hs (indent ++ step last ++ connector y.1 ++ y.2.label)
      (by rw [heq, List.nil_append, head?_write, Option.mem_some])
    rw [margin_row (isMargin_append.mpr ⟨hindent, isMargin_step last⟩)] at hfirst
    omega

theorem children_legible {indent : String} (hindent : IsMargin indent) {ts ts' : List Tree}
    {s s' : List String} (hts : ∀ t ∈ ts, t.IsNamed) (hts' : ∀ t ∈ ts', t.IsNamed)
    (hlegible : ∀ x ∈ flagged ts, (nodeScript indent).Legible x)
    (hs : (nodeScript indent).Ends [] s) (hs' : (nodeScript indent).Ends [] s')
    (h : rowsAll false indent ts ++ s = rowsAll false indent ts' ++ s') :
    outlineAll (truncate 30) ts = outlineAll (truncate 30) ts' ∧ s = s' := by
  have hrest (y : Bool × Tree) (u : List String) : (nodeScript indent).Kind y →
      (nodeScript indent).Rest ((nodeScript indent).write y ++ u) := by
    intro _ line hline
    rw [head?_write, Option.mem_some] at hline
    exact Nat.le_of_eq (hline ▸ margin_row hindent y.1 y.2)
  rw [rowsAll_eq, rowsAll_eq] at h
  obtain ⟨hshows, hst⟩ := Script.join_legible hrest
    (fun x hx => ⟨hts x.2 (mem_flagged hx), hlegible x hx⟩) (fun x hx => hts' x.2 (mem_flagged hx))
    hs hs' h
  exact ⟨by rw [outlineAll_eq indent, hshows, ← outlineAll_eq], hst⟩

theorem line_inj {indent : String} {last last' : Bool} {t t' : Tree}
    (h : indent ++ connector last ++ t.label = indent ++ connector last' ++ t'.label) :
    last = last' ∧ t.label = t'.label := by
  have hlength : (connector last).toList.length = (connector last').toList.length := by
    rw [String.length_toList, String.length_toList, length_connector, length_connector]
  simp only [← String.toList_inj, String.toList_append, List.append_assoc,
    List.append_cancel_left_eq] at h
  obtain ⟨hconnector, hlabel⟩ := List.append_inj h hlength
  have hlast : ∀ l l', (connector l).toList = (connector l').toList → l = l' := by decide
  exact ⟨hlast _ _ hconnector, String.toList_inj.mp hlabel⟩

theorem node_legible {indent : String} (hindent : IsMargin indent) {last : Bool} {t : Tree}
    (ht : t.IsNamed)
    (hchildren : ∀ x ∈ flagged t.children, (nodeScript (indent ++ step last)).Legible x) :
    (nodeScript indent).Legible (last, t) := by
  intro ⟨last', t'⟩ s s' ht' hs hs' h
  simp only [nodeScript, rows_eq, List.cons_append, List.cons.injEq] at h
  obtain ⟨hline, hbelow⟩ := h
  obtain ⟨rfl, hlabel⟩ := line_inj hline
  obtain ⟨houtlines, hst⟩ := children_legible (isMargin_append.mpr ⟨hindent, isMargin_step last⟩)
    (isNamed_children ht) (isNamed_children ht') hchildren (ends_of_rest hindent last hs)
    (ends_of_rest hindent last hs') hbelow
  exact ⟨congrArg (last, ·) (outline_eq ht ht' hlabel houtlines), hst⟩

mutual

theorem nodes_legible : ∀ (t : Tree) (indent : String) (last : Bool), IsMargin indent →
    t.IsNamed → (nodeScript indent).Legible (last, t)
  | .leaf _, _, _, hindent, ht => node_legible hindent ht nofun
  | .branch _ _ children, _, last, hindent, ht =>
    node_legible hindent ht (nodesAll_legible children _
      (isMargin_append.mpr ⟨hindent, isMargin_step last⟩) (isNamed_branch.mp ht).2)

theorem nodesAll_legible : ∀ (ts : List Tree) (indent : String), IsMargin indent →
    (∀ t ∈ ts, t.IsNamed) → ∀ x ∈ flagged ts, (nodeScript indent).Legible x
  | [], _, _, _ => nofun
  | t :: ts, indent, hindent, hts => by
      rw [List.forall_mem_cons] at hts
      rw [flagged, List.forall_mem_cons]
      exact ⟨nodes_legible t indent _ hindent hts.1, nodesAll_legible ts indent hindent hts.2⟩

end

mutual

/-- What is drawn of a tree is in its outline. -/
theorem rows_congr : ∀ (t t' : Tree) (indent : String) (last : Bool),
    t.outline (truncate 30) = t'.outline (truncate 30) →
      rows false indent last t = rows false indent last t'
  | .leaf l, t', indent, last, h => by
      cases t' with
      | leaf l' =>
          simp only [outline, Outline.leaf.injEq] at h
          simp [rows, leafLabel, spanSuffix, h]
      | branch => cases h
  | .branch rule span children, t', indent, last, h => by
      cases t' with
      | leaf l' => cases h
      | branch rule' span' children' =>
          simp only [outline, Outline.branch.injEq] at h
          simp [rows, spanSuffix, h.1, rowsAll_congr children children' _ h.2]

theorem rowsAll_congr : ∀ (ts ts' : List Tree) (indent : String),
    outlineAll (truncate 30) ts = outlineAll (truncate 30) ts' →
      rowsAll false indent ts = rowsAll false indent ts'
  | [], ts', _, h => by
      cases ts' with
      | nil => rfl
      | cons => cases h
  | t :: ts, ts', indent, h => by
      cases ts' with
      | nil => cases h
      | cons t' ts' =>
          simp only [outlineAll, List.cons.injEq] at h
          have hlast : ts.isEmpty = ts'.isEmpty := by
            cases ts <;> cases ts' <;> simp [outlineAll] at h ⊢
          rw [rowsAll, rowsAll, hlast, rows_congr t t' indent _ h.1,
            rowsAll_congr ts ts' indent h.2]

end

/-- A line that is drawn for a node. -/
structure Line (line : String) (t : Tree) : Prop where
  newline : '\n' ∉ line.toList
  label : ∃ front, IsMargin front ∧ line = front ++ t.label

theorem newline_notMem_label {t : Tree} (h : t.IsNamed) : '\n' ∉ t.label.toList := by
  cases t with
  | leaf l =>
      have htags : '\n' ∉ ['|'].intercalate (l.tags.map String.toList) := by
        refine notMem_intercalate (by decide) ?_
        simpa [names] using fun tag htag hc => ((h tag htag).ne hc).2.1 rfl
      rw [label, toList_leafLabel]
      simp [htags, Text.newline_notMem_quote]
  | branch rule =>
      have hrule : '\n' ∉ rule.toList := fun hc => ((isNamed_branch.mp h).1.ne hc).2.1 rfl
      rw [label, toList_branchLabel]
      simp [hrule]

theorem line_of_margin {front : String} (hfront : IsMargin front) {t : Tree} (h : t.IsNamed) :
    Line (front ++ t.label) t := by
  have hnewline : '\n' ∉ front.toList := fun hc => absurd (hfront _ hc) (by decide)
  refine ⟨?_, front, hfront, rfl⟩
  rw [String.toList_append, List.mem_append, not_or]
  exact ⟨hnewline, newline_notMem_label h⟩

theorem line_of_row {indent : String} (hindent : IsMargin indent) (last : Bool) {t : Tree}
    (h : t.IsNamed) : Line (indent ++ connector last ++ t.label) t :=
  line_of_margin (isMargin_append.mpr ⟨hindent, isMargin_connector last⟩) h

mutual

theorem lines_rows : ∀ (t : Tree) (indent : String) (last : Bool), IsMargin indent →
    t.IsNamed → List.Forall₂ Line (rows false indent last t) t.nodes
  | .leaf l, _, last, hindent, h => by
      rw [rows_eq]
      exact .cons (line_of_row hindent last h) .nil
  | .branch _ _ children, indent, last, hindent, h => by
      rw [rows_eq]
      exact .cons (line_of_row hindent last h) (lines_rowsAll children _
        (isMargin_append.mpr ⟨hindent, isMargin_step last⟩) (isNamed_branch.mp h).2)

theorem lines_rowsAll : ∀ (ts : List Tree) (indent : String), IsMargin indent →
    (∀ t ∈ ts, t.IsNamed) → List.Forall₂ Line (rowsAll false indent ts) (nodesAll ts)
  | [], _, _, _ => .nil
  | t :: ts, indent, hindent, h => by
      rw [List.forall_mem_cons] at h
      exact List.rel_append (lines_rows t indent _ hindent h.1)
        (lines_rowsAll ts indent hindent h.2)

end

end Tree

namespace Branch

variable {a b : Branch}

theorem lines_rows (hb : b.tree.IsNamed) :
    List.Forall₂ Tree.Line (b.rows false) b.tree.nodes := by
  have hroot : Tree.Line (Tree.branchLabel b.rule) b.tree := by
    simpa [Tree.label, tree] using Tree.line_of_margin Tree.isMargin_empty hb
  have hbelow := Tree.lines_rowsAll b.children "" Tree.isMargin_empty (Tree.isNamed_branch.mp hb).2
  simpa [rows, Tree.spanSuffix, Tree.nodes, tree] using ⟨hroot, hbelow⟩

/-- Lines with their ends. -/
def lineScript : Script Char String String where
  write line := line.toList ++ ['\n']
  shows := id
  Kind line := '\n' ∉ line.toList
  Rest _ := True

theorem line_legible {line : String} (hline : '\n' ∉ line.toList) : lineScript.Legible line := by
  intro line' s t hline' _ _ heq
  simp only [lineScript, List.append_assoc] at heq
  obtain ⟨htext, hrest⟩ := append_inj_of_head (· ≠ '\n')
    (fun c hc h => hline (h ▸ hc)) (fun c hc h => hline' (h ▸ hc)) (by simp) (by simp) heq
  exact ⟨String.toList_inj.mp htext, (List.cons.inj hrest).2⟩

theorem lines_inj {lines lines' : List String} (h : ∀ line ∈ lines, '\n' ∉ line.toList)
    (h' : ∀ line ∈ lines', '\n' ∉ line.toList) :
    String.join (lines.map (· ++ "\n")) = String.join (lines'.map (· ++ "\n")) ↔
      lines = lines' := by
  refine ⟨fun heq => ?_, fun heq => heq ▸ rfl⟩
  have hends : lineScript.Ends [] [] := ⟨trivial, fun y u _ => by simp [lineScript]⟩
  have hread := Script.join_legible (w := lineScript) (fun _ _ _ => trivial)
    (fun line hline => ⟨h line hline, line_legible (h line hline)⟩) h' hends hends
    (by simpa [← String.toList_inj, String.toList_join, List.flatMap_map, lineScript] using heq)
  simpa [lineScript] using hread.1

theorem treeviz_inj (ha : a.tree.IsNamed) (hb : b.tree.IsNamed) :
    a.treeviz false = b.treeviz false ↔
      a.outline (Tree.truncate 30) = b.outline (Tree.truncate 30) := by
  have hnewline {b : Branch} (hb : b.tree.IsNamed) :
      ∀ line ∈ b.rows false, '\n' ∉ line.toList := by
    have hlines := (lines_rows hb).imp fun line t h => And.intro h.newline h
    exact ((List.forall₂_and_left _ _).mp hlines).1
  rw [treeviz, treeviz, lines_inj (hnewline ha) (hnewline hb), rows, rows]
  constructor
  · intro h
    obtain ⟨hroot, hbelow⟩ := List.cons.inj h
    have hends : (Tree.nodeScript "").Ends [] [] := by
      refine ⟨nofun, fun y u _ heq => ?_⟩
      have hhead := congrArg List.head? heq
      rw [List.nil_append, Tree.head?_write] at hhead
      cases hhead
    have hchildren := (Tree.isNamed_branch.mp ha).2
    obtain ⟨houtlines, -⟩ := Tree.children_legible Tree.isMargin_empty hchildren
      (Tree.isNamed_branch.mp hb).2
      (Tree.nodesAll_legible a.children "" Tree.isMargin_empty hchildren) hends hends
      (by simpa using hbelow)
    refine Tree.outline_eq ha hb ?_ houtlines
    simpa [Tree.spanSuffix, Tree.label, tree] using hroot
  · intro h
    simp only [outline, tree, Tree.outline, Outline.branch.injEq] at h
    rw [h.1, Tree.rowsAll_congr _ _ "" h.2]
    rfl

end Branch

theorem Aether.isName_names {features : Features} {g : Grammar}
    (h : Aether.grammar features = .ok g) :
    (∀ d ∈ g.rules, IsName d.name) ∧ ∀ tag ∈ g.lexicon.tags, IsName tag.name := by
  obtain ⟨lexicon, hlexicon⟩ := exists_lexicon
  rw [grammar_eq hlexicon, Except.ok.injEq] at h
  have hrules : ∀ p : Production, IsName p.name := by
    intro p
    cases p <;> decide +kernel
  have htags : Aether.lexicon.toOption.map
      (fun l => decide (∀ tag ∈ l.tags, IsName tag.name)) = some true := by
    decide +kernel
  rw [← h]
  refine ⟨?_, by simpa [hlexicon, Except.toOption, builtOn] using htags⟩
  simpa [builtOn] using fun p _ => hrules p

/-- Without spans, a drawing of named nodes has one line for each of them and tells the outline of
the tree, with texts cut off, and no more than that. All names of Aether are good for it. -/
theorem Branch.drawings_tell_outlines :
    (∀ b : Branch, b.tree.IsNamed → ∃ lines : List String,
      b.treeviz false = String.join (lines.map (· ++ "\n")) ∧
        List.Forall₂ Tree.Line lines b.tree.nodes) ∧
    (∀ a b : Branch, a.tree.IsNamed → b.tree.IsNamed →
      (a.treeviz false = b.treeviz false ↔
        a.outline (Tree.truncate 30) = b.outline (Tree.truncate 30))) ∧
    ∀ (features : Features) (g : Grammar), Aether.grammar features = .ok g →
      (∀ d ∈ g.rules, IsName d.name) ∧ ∀ tag ∈ g.lexicon.tags, IsName tag.name :=
  ⟨fun b hb => ⟨b.rows false, rfl, lines_rows hb⟩, fun _ _ => treeviz_inj,
    fun _ _ => Aether.isName_names⟩

end Multipath
