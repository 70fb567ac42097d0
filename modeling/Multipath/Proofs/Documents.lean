import Multipath.Proofs.Legibility
import Multipath.Tree.Format

/-!
What the documents of trees tell. A JSON value is found in its text, whatever is quoted in it
(`Json.Value.pretty_legible`): strings end at the first quote that is not escaped, numbers at the
first character that is no digit, and behind a member or an element there is a comma or the end of
the line. The document of a tree tells the tree; without spans it tells the outline of the tree,
which is all but the spans.
-/

namespace Multipath

namespace Json

/-- Short escapes by their letters, other control characters by two hexadecimal digits. -/
def escapes : Escapes where
  letters := [('"', '"'), ('\\', '\\'), ('\x08', 'b'), ('\x0c', 'f'), ('\n', 'n'), ('\r', 'r'),
    ('\t', 't')]
  Coded c := c.toNat < 0x20
  code c := ['0', '0', Nat.digitChar (c.toNat / 16), Nat.digitChar (c.toNat % 16)]

theorem escapes_sound : escapes.Sound where
  letter := by decide
  notCode := by decide
  code c d s t hc hd h := by
    simp only [escapes, List.cons_append, List.nil_append, List.cons.injEq, true_and] at hc hd h
    have hdiv := digitChar_inj _ (by omega) _ (by omega) h.1
    have hmod := digitChar_inj _ (by omega) _ (by omega) h.2.1
    exact ⟨Char.toNat_inj.mp (by omega), h.2.2⟩

theorem escape_writes (c : Char) : escapes.Writes c (escape c) := by
  unfold escape
  split
  case h_8 =>
    split_ifs with hcoded
    · exact .coded hcoded
    · exact .plain ‹_› ‹_›
  all_goals exact .letter (by decide)

theorem quote_legible {a b : String} {s t : List Char}
    (h : (quote a).toList ++ s = (quote b).toList ++ t) : a = b ∧ s = t := by
  simp only [quote, String.toList_ofList, List.append_assoc, List.cons_append,
    List.nil_append] at h
  have hread := escapes_sound.read_quoted escape_writes (by simpa using h)
  exact ⟨String.toList_inj.mp hread.1, hread.2⟩

namespace Value

theorem prettyAll_eq (indent : String) (vs : List Value) :
    prettyAll indent vs = vs.map (pretty indent) := by
  induction vs with
  | nil => rfl
  | cons v vs ih => simp [prettyAll, ih]

theorem prettyMembers_eq (indent : String) (ms : List (String × Value)) :
    prettyMembers indent ms = ms.map fun m => quote m.1 ++ ": " ++ m.2.pretty indent := by
  induction ms with
  | nil => rfl
  | cons m ms ih => simp [prettyMembers, ih]

/-- What the text of a value begins with. -/
def Opens : Value → Char → Prop
  | .string _, c => c = '"'
  | .number _, c => c.isDigit = true
  | .array _, c => c = '['
  | .object _, c => c = '\x7b'

/-- What stands behind a value: nothing that another digit could be. -/
def Stops (s : List Char) : Prop := ∀ c ∈ s.head?, c.isDigit = false

@[simp] theorem stops_nil : Stops [] := nofun

@[simp] theorem stops_cons {c : Char} {s : List Char} : Stops (c :: s) ↔ c.isDigit = false := by
  simp [Stops]

/-- Values behind an indentation. -/
def valueScript (indent : String) : Script Char Value Value where
  write v := (v.pretty indent).toList
  shows := id
  Kind _ := True
  Rest := Stops

/-- The rows of a block, one level further in than its brackets. -/
def rowScript {α : Type} (indent : String) (row : α → String) : Script Char α α where
  write x := (indent ++ "  ").toList ++ (row x).toList
  shows := id
  Kind _ := True
  Rest := Stops

theorem toList_block {α : Type} (opening closing indent : String) (row : α → String)
    (xs : List α) : (block opening closing indent (xs.map row)).toList = opening.toList ++
      if xs.isEmpty then closing.toList else
        '\n' :: ([',', '\n'].intercalate (xs.map (rowScript indent row).write) ++
          '\n' :: (indent.toList ++ closing.toList)) := by
  cases xs with
  | nil => simp [block]
  | cons x xs =>
      simp [block, String.toList_intercalate, Function.comp_def, rowScript,
        Script.intercalate_cons]

/-- A comma tells whether another row follows. -/
theorem block_legible {α : Type} {opening closing indent : String} {row : α → String}
    {xs ys : List α} {c : Char} {s t : List Char} (hclosing : closing.toList = [c])
    (hc : c ≠ '\n') (hxs : ∀ x ∈ xs, (rowScript indent row).Legible x)
    (h : (block opening closing indent (xs.map row)).toList ++ s =
      (block opening closing indent (ys.map row)).toList ++ t) : xs = ys ∧ s = t := by
  have hends (u : List Char) : (rowScript indent row).Ends [',', '\n'] ('\n' :: u) :=
    ⟨stops_cons.mpr rfl, fun y u _ => by simp⟩
  have hsep (y : α) (u : List Char) : (rowScript indent row).Kind y →
      (rowScript indent row).Rest ([',', '\n'] ++ ((rowScript indent row).write y ++ u)) :=
    fun _ => stops_cons.mpr rfl
  rw [toList_block, toList_block, hclosing, List.append_assoc, List.append_assoc,
    List.append_cancel_left_eq] at h
  cases xs with
  | nil =>
      cases ys with
      | nil => exact ⟨rfl, by simpa using h⟩
      | cons y ys => exact absurd (List.cons.inj h).1 hc
  | cons x xs =>
      cases ys with
      | nil => exact absurd (List.cons.inj h).1.symm hc
      | cons y ys =>
          have hread := Script.intercalate_legible hsep (fun x hx => ⟨trivial, hxs x hx⟩)
            (fun _ _ => trivial) (hends _) (hends _) (List.cons_ne_nil x xs)
            (List.cons_ne_nil y ys) (by simpa using h)
          exact ⟨by simpa [rowScript] using hread.1, by simpa using hread.2⟩

theorem isDigit_of_mem_toString {n : Nat} {c : Char} (hc : c ∈ (toString n).toList) :
    c.isDigit = true := by
  rw [Nat.toString_eq_ofList_toDigits, String.toList_ofList] at hc
  exact Nat.isDigit_of_mem_toDigits (by decide) (by decide) hc

theorem pretty_opens (v : Value) (indent : String) :
    ∃ c u, v.Opens c ∧ (v.pretty indent).toList = c :: u := by
  cases v with
  | string => exact ⟨'"', _, rfl, by simp [pretty, quote]; rfl⟩
  | number n =>
      have hne : (toString n).toList ≠ [] := by
        rw [Nat.toString_eq_ofList_toDigits, String.toList_ofList]
        exact Nat.toDigits_ne_nil
      obtain ⟨c, u, hu⟩ := List.exists_cons_of_ne_nil hne
      exact ⟨c, u, isDigit_of_mem_toString (n := n) (hu ▸ List.mem_cons_self), hu⟩
  | array elements =>
      exact ⟨'[', _, rfl, by rw [pretty, prettyAll_eq, toList_block]; rfl⟩
  | object members =>
      exact ⟨'\x7b', _, rfl, by rw [pretty, prettyMembers_eq, toList_block]; rfl⟩

/-- Where two values begin in the same way, they are of one kind. -/
theorem opens_of_eq {v w : Value} {indent : String} {s t : List Char}
    (h : (valueScript indent).write v ++ s = (valueScript indent).write w ++ t) :
    ∃ c, v.Opens c ∧ w.Opens c := by
  obtain ⟨c, u, hv, hu⟩ := v.pretty_opens indent
  obtain ⟨d, u', hw, hu'⟩ := w.pretty_opens indent
  simp only [valueScript, hu, hu'] at h
  obtain rfl := (List.cons.inj h).1
  exact ⟨c, hv, hw⟩

theorem number_legible (indent : String) (n : Nat) : (valueScript indent).Legible (.number n) := by
  intro w s t _ hs ht h
  obtain ⟨c, hv, hw⟩ := opens_of_eq h
  cases w with
  | number m =>
      obtain ⟨htext, hst⟩ := append_inj_of_head (·.isDigit = true)
        (fun c => isDigit_of_mem_toString) (fun c => isDigit_of_mem_toString)
        (fun c hc => by simp [hs c hc]) (fun c hc => by simp [ht c hc]) h
      refine ⟨congrArg number (toDigits_inj 10 (by decide) (by decide) ?_), hst⟩
      simpa [valueScript, pretty, Nat.toString_eq_ofList_toDigits] using htext
  | string | array | object =>
      simp only [Opens] at hv hw
      simp [hw] at hv

theorem string_legible (indent text : String) : (valueScript indent).Legible (.string text) := by
  intro w s t _ hs ht h
  obtain ⟨c, hv, hw⟩ := opens_of_eq h
  cases w with
  | string text' =>
      simp only [valueScript, pretty] at h
      obtain ⟨htext, hst⟩ := quote_legible h
      exact ⟨congrArg string htext, hst⟩
  | number | array | object =>
      simp only [Opens] at hv hw
      simp [hv] at hw

theorem array_legible (indent : String) {elements : List Value}
    (helements : ∀ v ∈ elements, (valueScript (indent ++ "  ")).Legible v) :
    (valueScript indent).Legible (.array elements) := by
  intro w s t _ hs ht h
  obtain ⟨c, hv, hw⟩ := opens_of_eq h
  cases w with
  | array elements' =>
      have hrows : ∀ v ∈ elements, (rowScript indent (pretty (indent ++ "  "))).Legible v := by
        intro v hv w s t hw hs ht h
        exact helements v hv w s t hw hs ht (by simpa [rowScript, valueScript] using h)
      simp only [valueScript, pretty, prettyAll_eq] at h
      obtain ⟨hall, hst⟩ := block_legible rfl (by decide) hrows h
      exact ⟨congrArg array hall, hst⟩
  | string | number | object =>
      simp only [Opens] at hv hw
      simp [hv] at hw

theorem object_legible (indent : String) {members : List (String × Value)}
    (hmembers : ∀ m ∈ members, (valueScript (indent ++ "  ")).Legible m.2) :
    (valueScript indent).Legible (.object members) := by
  intro w s t _ hs ht h
  obtain ⟨c, hv, hw⟩ := opens_of_eq h
  cases w with
  | object members' =>
      have hrows : ∀ m ∈ members, (rowScript indent fun m : String × Value =>
          quote m.1 ++ ": " ++ m.2.pretty (indent ++ "  ")).Legible m := by
        intro m hm n s t hn hs ht h
        simp only [rowScript, String.toList_append, List.append_assoc,
          List.append_cancel_left_eq] at h
        obtain ⟨hname, h⟩ := quote_legible h
        obtain ⟨hvalue, hst⟩ :=
          hmembers m hm n.2 s t trivial hs ht (List.append_cancel_left h)
        exact ⟨Prod.ext hname hvalue, hst⟩
      simp only [valueScript, pretty, prettyMembers_eq] at h
      obtain ⟨hall, hst⟩ := block_legible rfl (by decide) hrows h
      exact ⟨congrArg object hall, hst⟩
  | string | number | array =>
      simp only [Opens] at hv hw
      simp [hv] at hw

mutual

theorem pretty_legible : ∀ (v : Value) (indent : String), (valueScript indent).Legible v
  | .string text, indent => string_legible indent text
  | .number n, indent => number_legible indent n
  | .array elements, indent => array_legible indent (prettyAll_legible elements (indent ++ "  "))
  | .object members, indent =>
    object_legible indent (prettyMembers_legible members (indent ++ "  "))

theorem prettyAll_legible : ∀ (vs : List Value) (indent : String),
    ∀ v ∈ vs, (valueScript indent).Legible v
  | [], _ => nofun
  | v :: vs, indent => by
      rw [List.forall_mem_cons]
      exact ⟨pretty_legible v indent, prettyAll_legible vs indent⟩

theorem prettyMembers_legible : ∀ (ms : List (String × Value)) (indent : String),
    ∀ m ∈ ms, (valueScript indent).Legible m.2
  | [], _ => nofun
  | (_, v) :: ms, indent => by
      rw [List.forall_mem_cons]
      exact ⟨pretty_legible v indent, prettyMembers_legible ms indent⟩

end

theorem pretty_inj {v w : Value} {indent : String} : v.pretty indent = w.pretty indent ↔ v = w := by
  refine ⟨fun h => ?_, fun h => h ▸ rfl⟩
  exact (pretty_legible v indent).eq stops_nil trivial (congrArg String.toList h)

end Value
end Json

/-- A tree without its spans. -/
inductive Outline where
  | leaf (tags : List String) (text : String)
  | branch (rule : String) (children : List Outline)

namespace Tree

mutual

/-- What there is in a tree but spans, where of a text only so much is shown. -/
def outline (shown : String → String) : Tree → Outline
  | .leaf l => .leaf l.tags (shown l.text)
  | .branch rule _ children => .branch rule (outlineAll shown children)

def outlineAll (shown : String → String) : List Tree → List Outline
  | [] => []
  | t :: ts => outline shown t :: outlineAll shown ts

end

mutual

/-- The document of a tree, in which spans are members of leaves and branches and of nothing
else. -/
def document (spans : Bool) : Tree → Json.Value
  | .leaf l => .object ([("kind", .string "leaf")] ++
      (if spans then [("span", l.span.json)] else []) ++
      [("tags", .array (l.tags.map .string)), ("text", .string l.text)])
  | .branch rule span children => .object
      ([("children", .array (documentAll spans children)), ("kind", .string "branch"),
        ("rule", .string rule)] ++ if spans then [("span", span.json)] else [])

def documentAll (spans : Bool) : List Tree → List Json.Value
  | [] => []
  | t :: ts => document spans t :: documentAll spans ts

end

end Tree

def Branch.outline (b : Branch) (shown : String → String) : Outline := b.tree.outline shown

def Branch.document (b : Branch) (spans : Bool) : Json.Value := .object
  [("root", .object ([("children", .array (Tree.documentAll spans b.children)),
    ("rule", .string b.rule)] ++ if spans then [("span", b.span.json)] else []))]

section Documents

open Json Json.Value

theorem without_strings (key : String) (texts : List String) :
    withoutAll key (texts.map .string) = texts.map .string := by
  induction texts with
  | nil => rfl
  | cons text texts ih => simp [withoutAll, without, ih]

theorem Position.json_inj {p q : Position} : p.json = q.json ↔ p = q := by
  cases p
  cases q
  simp [Position.json]
  tauto

theorem Span.json_inj {s s' : Span} : s.json = s'.json ↔ s = s' := by
  cases s
  cases s'
  simp [Span.json, Position.json_inj, and_comm]

namespace Tree

mutual

theorem document_true : ∀ t : Tree, t.document true = t.json
  | .leaf _ => rfl
  | .branch _ _ children => by simp [document, json, documentAll_true children]

theorem documentAll_true : ∀ ts : List Tree, documentAll true ts = jsonAll ts
  | [] => rfl
  | t :: ts => by simp [documentAll, jsonAll, document_true t, documentAll_true ts]

end

mutual

theorem without_span : ∀ t : Tree, t.json.without "span" = t.document false
  | .leaf _ => by simp [document, json, without, withoutMembers, without_strings]
  | .branch _ _ children => by
      simp [document, json, without, withoutMembers, withoutAll_span children]

theorem withoutAll_span : ∀ ts : List Tree,
    withoutAll "span" (jsonAll ts) = documentAll false ts
  | [] => rfl
  | t :: ts => by simp [documentAll, jsonAll, withoutAll, without_span t, withoutAll_span ts]

end

theorem map_string_inj {texts texts' : List String} :
    texts.map Value.string = texts'.map .string ↔ texts = texts' :=
  (List.map_injective_iff.mpr fun _ _ => Value.string.inj).eq_iff

mutual

theorem document_true_inj : ∀ t t' : Tree, t.document true = t'.document true ↔ t = t'
  | .leaf l, t' => by
      cases t' with
      | leaf l' =>
          obtain ⟨tags, text, span⟩ := l
          obtain ⟨tags', text', span'⟩ := l'
          simp [document, map_string_inj, Span.json_inj]
          tauto
      | branch => simp [document]
  | .branch _ _ children, t' => by
      cases t' with
      | leaf => simp [document]
      | branch =>
        simp [document, documentAll_true_inj children, Span.json_inj]
        tauto

theorem documentAll_true_inj : ∀ ts ts' : List Tree,
    documentAll true ts = documentAll true ts' ↔ ts = ts'
  | [], ts' => by cases ts' <;> simp [documentAll]
  | t :: ts, ts' => by
      cases ts' <;> simp [documentAll, document_true_inj t, documentAll_true_inj ts]

end

mutual

theorem document_false_inj : ∀ t t' : Tree,
    t.document false = t'.document false ↔ t.outline id = t'.outline id
  | .leaf l, t' => by cases t' <;> simp [document, outline, map_string_inj]
  | .branch _ _ children, t' => by
      cases t' <;> simp [document, outline, documentAll_false_inj children, and_comm]

theorem documentAll_false_inj : ∀ ts ts' : List Tree,
    documentAll false ts = documentAll false ts' ↔ outlineAll id ts = outlineAll id ts'
  | [], ts' => by cases ts' <;> simp [documentAll, outlineAll]
  | t :: ts, ts' => by
      cases ts' <;> simp [documentAll, outlineAll, document_false_inj t, documentAll_false_inj ts]

end

end Tree

namespace Branch

variable {a b : Branch}

theorem document_true (b : Branch) : b.document true = b.json true := by
  simp [document, json, Tree.documentAll_true]

/-- What is left out without spans are the spans, and nothing but these. -/
theorem document_false (b : Branch) : b.document false = b.json false := by
  simp [document, json, without, withoutMembers, Tree.withoutAll_span]

theorem document_true_inj : a.document true = b.document true ↔ a = b := by
  cases a
  cases b
  simp [document, Tree.documentAll_true_inj, Span.json_inj]
  tauto

theorem document_false_inj :
    a.document false = b.document false ↔ a.outline id = b.outline id := by
  simp [document, outline, tree, Tree.outline, Tree.documentAll_false_inj, and_comm]

end Branch

/-- The document of a tree shows all of it that is asked for: with spans the tree, without them the
tree up to spans, where only the members for these are missing. -/
theorem Format.json_lossless (params : Params) (a b : Branch) :
    json.render a params = .ok ((a.document params.showSpans).pretty "") ∧
      a.document true = a.json true ∧ a.document false = (a.json true).without "span" ∧
      (json.render a params = json.render b params ↔
        if params.showSpans then a = b else a.outline id = b.outline id) := by
  have hrender (b : Branch) : json.render b params =
      .ok ((b.document params.showSpans).pretty "") := by
    cases h : params.showSpans <;>
      simp [json, h, Branch.document_true, Branch.document_false]
  refine ⟨hrender a, a.document_true, a.document_false, ?_⟩
  rw [hrender, hrender, Except.ok.injEq, pretty_inj]
  cases params.showSpans
  · simpa using Branch.document_false_inj
  · simpa using Branch.document_true_inj

end Documents
end Multipath
