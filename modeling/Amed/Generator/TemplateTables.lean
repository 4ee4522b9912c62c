import Amed.Generator.Arguments

/-!
# Rows of templates

`process_encoding` gives the templates of an encoding rows one behind another, and
`process_template` writes the arguments of a template into a table of pointers, up to a null
pointer.
-/

namespace Amed.Generator

open CNode

/-- A template of an encoding, with the text of its syntax. Its arguments are hashes. -/
structure SyntaxRecord where
  text : List Char
  arguments : List Ast.Fields

/-- An encoding, with what `process_node` uses of it. -/
structure TemplatesRecord (ρ : Type) where
  encoding : ρ
  templates : List SyntaxRecord

/-- The tables that `process_template` and `process_encoding` fill: the state of `process_node`, the
definitions, the pointers, the field `arguments` of each row of a template, and the fields
`first_template` and `template_count` of each row of an encoding. -/
structure TemplateState (σ : Type) where
  hook : σ
  argument : Dictionary := .new false
  arguments : Sequence
  templates : List Nat := []
  encodings : List (Nat × Nat) := []

/-- The pointer that ends a row. -/
def nullPointer : List Char := "NULL".toList

section

variable {σ ρ : Type} (hook : ρ → Hook σ)

/-- `node_to_c` on an argument. -/
def argumentToC (encoding : ρ) (argument : Ast.Fields) (s : σ × Dictionary) :
    Option (List Char × (σ × Dictionary)) :=
  nodeToC (hook encoding) (Ast.get argument "type".toList).text (.hash argument) s

/-- `process_template` -/
def processTemplate (encoding : ρ) (s : TemplateState σ) (template : SyntaxRecord) :
    Option (TemplateState σ) :=
  (mapState (argumentToC hook encoding) template.arguments (s.hook, s.argument)).map fun r =>
    let added := s.arguments.add (r.1 ++ [nullPointer])
    { s with
      hook := r.2.1
      argument := r.2.2
      arguments := added.2.setComment added.1 template.text
      templates := s.templates ++ [(added.2.items[added.1]?.map SequenceItem.index).getD 0] }

/-- `process_encoding`, as far as the templates. -/
def processTemplates (s : TemplateState σ) (record : TemplatesRecord ρ) :
    Option (TemplateState σ) :=
  (record.templates.foldlM (processTemplate hook record.encoding) s).map fun s' =>
    { s' with
      encodings :=
        s'.encodings ++ [(s.templates.length, s'.templates.length - s.templates.length)] }

/-- The tables of a generator. -/
def templateTables (start : σ) (name : List Char) (records : List (TemplatesRecord ρ)) :
    Option (TemplateState σ) :=
  records.foldlM (processTemplates hook)
    { hook := start
      arguments := ((Sequence.new name "void*".toList).add [nullPointer]).2 }

end

/-! ## Folds that may fail -/

section

variable {α β : Type} {f : β → α → Option β} {as : List α}

theorem foldlM_invariant {P : β → Prop}
    (h : ∀ a ∈ as, ∀ s s', P s → f s a = some s' → P s') {s s' : β} (hs : P s)
    (hrun : as.foldlM f s = some s') : P s' := by
  induction as generalizing s with
  | nil =>
      cases hrun
      exact hs
  | cons a as ih =>
      obtain ⟨hhead, htail⟩ := List.forall_mem_cons.mp h
      rw [List.foldlM_cons] at hrun
      obtain ⟨s₁, hfirst, hrest⟩ := Option.bind_eq_some_iff.mp hrun
      exact ih htail (hhead s s₁ hs hfirst) hrest

theorem exists_foldlM (h : ∀ a ∈ as, ∀ s, ∃ s', f s a = some s') (s : β) :
    ∃ s', as.foldlM f s = some s' := by
  induction as generalizing s with
  | nil => exact ⟨s, rfl⟩
  | cons a as ih =>
      obtain ⟨hhead, htail⟩ := List.forall_mem_cons.mp h
      obtain ⟨s₁, hs₁⟩ := hhead s
      obtain ⟨s', hs'⟩ := ih htail s₁
      exact ⟨s', by rw [List.foldlM_cons, hs₁]; exact hs'⟩

end

/-- The pointers of the table from an index on, up to the null pointer. -/
def readPointers (s : Sequence) (index : Nat) : List (List Char) :=
  (s.table.drop index).takeWhile (· != nullPointer)

/-- What `node_to_c` writes of an argument. -/
def convertArgument {σ : Type} (hook : Hook σ) (argument : Ast.Fields) (s : σ) :
    Option (CNode × σ) :=
  convert hook (Ast.get argument "type".toList).text (.hash argument) s

/-- What is known of the values that a generator writes, and of the state of its `process_node`
between them. -/
structure HookSpec {σ ρ : Type} (hook : ρ → Hook σ) where
  Inv : σ → Prop
  Le : σ → σ → Prop
  Writes : σ → ρ → Ast.Fields → CNode → Prop
  le_refl : ∀ s, Le s s
  le_trans : ∀ {s s' s'' : σ}, Le s s' → Le s' s'' → Le s s''
  mono : ∀ {s s' : σ} {e : ρ} {a : Ast.Fields} {node : CNode},
    Le s s' → Writes s e a node → Writes s' e a node
  step : ∀ {s s' : σ} {e : ρ} {a : Ast.Fields} {node : CNode}, Inv s →
    convertArgument (hook e) a s = some (node, s') → Inv s' ∧ Le s s' ∧ Writes s' e a node

/-! ## What `process_node` changes -/

mutual

/-- What `node_to_c` writes of a value, where `process_node` changes values as `P` says. -/
inductive Written (P : Ast → Ast → Prop) : List Char → Ast → CNode → Prop
  | undefined {qlf : List Char} {node : Ast} (h : P node .undefined) :
      Written P qlf node (.value (quoteValue qlf (typeOfName qlf) []))
  | scalar {qlf : List Char} {node : Ast} {text : List Char} (h : P node (.scalar text)) :
      Written P qlf node (.value (quoteValue qlf (typeOfName qlf) text))
  | array {qlf : List Char} {node : Ast} {items : List Ast} {nodes : List CNode}
      (h : P node (.array items))
      (hbelow : WrittenAll P (items.map fun item => (qlf, item)) nodes) :
      Written P qlf node (.array (typeOfName qlf) nodes)
  | hash {qlf : List Char} {node : Ast} {fields : Ast.Fields} {nodes : List CNode}
      (h : P node (.hash fields))
      (hbelow : WrittenAll P ((shownFields fields).map fun f => (qlf ++ '.' :: f.1, f.2)) nodes) :
      Written P qlf node (.hash (typeOfHash qlf fields) ((shownFields fields).map Prod.fst) nodes)

inductive WrittenAll (P : Ast → Ast → Prop) : List (List Char × Ast) → List CNode → Prop
  | nil : WrittenAll P [] []
  | cons {qlf : List Char} {value : Ast} {values : List (List Char × Ast)} {node : CNode}
      {nodes : List CNode} (hnode : Written P qlf value node) (hnodes : WrittenAll P values nodes) :
      WrittenAll P ((qlf, value) :: values) (node :: nodes)

end

mutual

theorem Written.mono {P Q : Ast → Ast → Prop} (h : ∀ node node', P node node' → Q node node')
    {qlf : List Char} {value : Ast} {node : CNode} (hwritten : Written P qlf value node) :
    Written Q qlf value node :=
  match hwritten with
  | .undefined hp => .undefined (h _ _ hp)
  | .scalar hp => .scalar (h _ _ hp)
  | .array hp hbelow => .array (h _ _ hp) (hbelow.mono h)
  | .hash hp hbelow => .hash (h _ _ hp) (hbelow.mono h)

theorem WrittenAll.mono {P Q : Ast → Ast → Prop} (h : ∀ node node', P node node' → Q node node')
    {values : List (List Char × Ast)} {nodes : List CNode} (hwritten : WrittenAll P values nodes) :
    WrittenAll Q values nodes :=
  match hwritten with
  | .nil => .nil
  | .cons hnode hnodes => .cons (hnode.mono h) (hnodes.mono h)

end

/-- What one `process_node` does, and what stays of it while the state goes on. -/
structure ProcessSpec {σ ρ : Type} (hook : ρ → Hook σ) where
  Inv : σ → Prop
  Le : σ → σ → Prop
  Changes : σ → ρ → Ast → Ast → Prop
  le_refl : ∀ s, Le s s
  le_trans : ∀ {s s' s'' : σ}, Le s s' → Le s' s'' → Le s s''
  mono : ∀ {s s' : σ} {e : ρ} {node node' : Ast},
    Le s s' → Changes s e node node' → Changes s' e node node'
  step : ∀ {s s' : σ} {e : ρ} {node node' : Ast}, Inv s →
    (hook e).process node s = some (node', s') → Inv s' ∧ Le s s' ∧ Changes s' e node node'

section

variable {σ ρ : Type} {hook : ρ → Hook σ}

/-- The values of a list are written one after the other. -/
theorem ProcessSpec.mapState_written (spec : ProcessSpec hook) {e : ρ} {α : Type}
    {f : α → σ → Option (CNode × σ)} {name : α → List Char} {value : α → Ast} {as : List α}
    (h : ∀ a ∈ as, ∀ s r, spec.Inv s → f a s = some r →
      spec.Inv r.2 ∧ spec.Le s r.2 ∧ Written (spec.Changes r.2 e) (name a) (value a) r.1)
    {s : σ} {rs : List CNode × σ} (hs : spec.Inv s) (hrun : mapState f as s = some rs) :
    spec.Inv rs.2 ∧ spec.Le s rs.2 ∧
      WrittenAll (spec.Changes rs.2 e) (as.map fun a => (name a, value a)) rs.1 := by
  induction as generalizing s rs with
  | nil =>
      cases hrun
      exact ⟨hs, spec.le_refl _, .nil⟩
  | cons a as ih =>
      obtain ⟨hhead, htail⟩ := List.forall_mem_cons.mp h
      rw [mapState] at hrun
      obtain ⟨r, hr, hrun⟩ := Option.bind_eq_some_iff.mp hrun
      obtain ⟨rest, hrest, rfl⟩ := Option.map_eq_some_iff.mp hrun
      obtain ⟨hinv, hle, hwritten⟩ := hhead s r hs hr
      obtain ⟨hinv', hle', hall⟩ := ih htail hinv hrest
      exact ⟨hinv', spec.le_trans hle hle', .cons (hwritten.mono fun _ _ => spec.mono hle') hall⟩

theorem ProcessSpec.convertBy_written (spec : ProcessSpec hook) {e : ρ} {n : Nat} {qlf : List Char}
    {value : Ast} {s : σ} {r : CNode × σ} (hs : spec.Inv s)
    (h : convertBy (hook e) n qlf value s = some r) :
    spec.Inv r.2 ∧ spec.Le s r.2 ∧ Written (spec.Changes r.2 e) qlf value r.1 := by
  induction n generalizing qlf value s r with
  | zero => cases h
  | succ n ih =>
      rw [convertBy] at h
      obtain ⟨⟨node', s₁⟩, hprocess, h⟩ := Option.bind_eq_some_iff.mp h
      obtain ⟨hinv, hle, hchanges⟩ := spec.step hs hprocess
      cases node' with
      | undefined =>
          cases h
          exact ⟨hinv, hle, .undefined hchanges⟩
      | scalar text =>
          cases h
          exact ⟨hinv, hle, .scalar hchanges⟩
      | array items =>
          obtain ⟨rs, hrs, rfl⟩ := Option.map_eq_some_iff.mp h
          obtain ⟨hinv', hle', hall⟩ :=
            spec.mapState_written (fun _ _ _ _ hs hr => ih hs hr) hinv hrs
          exact ⟨hinv', spec.le_trans hle hle', .array (spec.mono hle' hchanges) hall⟩
      | hash fields =>
          obtain ⟨rs, hrs, rfl⟩ := Option.map_eq_some_iff.mp h
          obtain ⟨hinv', hle', hall⟩ :=
            spec.mapState_written (fun _ _ _ _ hs hr => ih hs hr) hinv hrs
          exact ⟨hinv', spec.le_trans hle hle', .hash (spec.mono hle' hchanges) hall⟩

/-- What is known of the arguments that such a generator writes. -/
def ProcessSpec.toHookSpec (spec : ProcessSpec hook) : HookSpec hook where
  Inv := spec.Inv
  Le := spec.Le
  Writes s e argument node :=
    Written (spec.Changes s e) (Ast.get argument "type".toList).text (.hash argument) node
  le_refl := spec.le_refl
  le_trans := spec.le_trans
  mono hle hwritten := hwritten.mono fun _ _ => spec.mono hle
  step hs h := spec.convertBy_written hs h

end

/-! ## Rows -/

section

variable {σ ρ : Type} {hook : ρ → Hook σ}

theorem argumentToC_eq (encoding : ρ) (argument : Ast.Fields) (s : σ) (d : Dictionary) :
    argumentToC hook encoding argument (s, d) =
      (convertArgument (hook encoding) argument s).map fun r =>
        ((r.1.define d).1, (r.2, (r.1.define d).2)) :=
  nodeToC_eq (hook encoding) _ _ s d

/-- What is written of an argument is an object. -/
theorem convertArgument_hash {hook : Hook σ} {argument : Ast.Fields} {s s' : σ} {node : CNode}
    (h : convertArgument hook argument s = some (node, s')) :
    ∃ type keys values, node = .hash type keys values := by
  rw [convertArgument, convert, convertBy] at h
  obtain ⟨⟨node', s₁⟩, hprocess, h⟩ := Option.bind_eq_some_iff.mp h
  obtain ⟨fields', rfl⟩ := hook.isHash hprocess
  obtain ⟨r, -, h⟩ := Option.map_eq_some_iff.mp h
  cases h
  exact ⟨_, _, _, rfl⟩

/-- The arguments of a template are written one after the other. -/
theorem argumentsToC_spec (spec : HookSpec hook) {encoding : ρ} {arguments : List Ast.Fields}
    {s s' : σ} {d d' : Dictionary} {texts : List (List Char)} (hinv : spec.Inv s) (hd : Defines d)
    (h : mapState (argumentToC hook encoding) arguments (s, d) = some (texts, (s', d'))) :
    spec.Inv s' ∧ spec.Le s s' ∧ Defines d' ∧ d.items <+: d'.items ∧
      (∀ text ∈ texts, ∃ item ∈ d'.items, text = item.address) ∧
      ∃ nodes, List.Forall₂ (spec.Writes s' encoding) arguments nodes ∧
        ShowsAll d'.items nodes texts := by
  induction arguments generalizing s d texts with
  | nil =>
      cases h
      exact ⟨hinv, spec.le_refl _, hd, List.prefix_rfl, fun _ h => absurd h List.not_mem_nil, [],
        .nil, .nil⟩
  | cons argument arguments ih =>
      rw [mapState, argumentToC_eq] at h
      obtain ⟨r, hr, h⟩ := Option.bind_eq_some_iff.mp h
      obtain ⟨⟨node, s₁⟩, hconvert, rfl⟩ := Option.map_eq_some_iff.mp hr
      obtain ⟨⟨texts', s₂⟩, hmore, h⟩ := Option.map_eq_some_iff.mp h
      cases h
      obtain ⟨hinv₁, hle, hwrites⟩ := spec.step hinv hconvert
      obtain ⟨hd₁, hgrows, hshows⟩ := define_spec hd node
      obtain ⟨hinv', hle', hd', hgrows', haddresses, nodes, hall, hnodes⟩ := ih hinv₁ hd₁ hmore
      refine ⟨hinv', spec.le_trans hle hle', hd', hgrows.trans hgrows', ?_, node :: nodes,
        .cons (spec.mono hle' hwrites) hall, .cons (hshows.mono hgrows'.subset) hnodes⟩
      refine List.forall_mem_cons.mpr ⟨?_, haddresses⟩
      obtain ⟨type, keys, values, rfl⟩ := convertArgument_hash hconvert
      obtain hvalue | ⟨item, hitem, haddress, -⟩ := hshows.cases
      · cases hvalue
      · exact ⟨item, hgrows'.subset hitem, haddress⟩

/-- `process_node` leaves words where it finds them. -/
def KeepsNames (hook : Hook σ) : Prop :=
  ∀ {node node' : Ast} {s s' : σ}, node.Named → hook.process node s = some (node', s') → node'.Named

theorem convertArgument_typesFit {hook : Hook σ} (hhook : KeepsNames hook) {argument : Ast.Fields}
    {s s' : σ} {node : CNode} (hargument : (Ast.hash argument).Named)
    (h : convertArgument hook argument s = some (node, s')) : TypesFit node.types := by
  refine typesFit_convertBy hhook hargument ?_ h
  cases hargument with
  | hash hkeys htype hvalues =>
      by_cases hhas : Ast.has argument "type".toList = true
      · have hname := typeOfName_word (htype hhas) [] (by simp)
        rw [List.nil_append] at hname
        rw [hname]
        exact isTypeName_of_word (htype hhas)
      · have hget : Ast.get argument "type".toList = .undefined := by
          rw [Ast.get, Option.not_isSome_iff_eq_none.mp hhas]
          rfl
        rw [hget]
        have hword : isWordName "anonymous".toList = true := by decide
        exact isTypeName_of_word hword

theorem argumentsToC_namesFit {encoding : ρ} {arguments : List Ast.Fields} {s s' : σ}
    {d d' : Dictionary} {texts : List (List Char)}
    (hhook : KeepsNames (hook encoding))
    (hnamed : ∀ argument ∈ arguments, (Ast.hash argument).Named) (hd : NamesFit d.items)
    (h : mapState (argumentToC hook encoding) arguments (s, d) = some (texts, (s', d'))) :
    NamesFit d'.items := by
  induction arguments generalizing s d texts with
  | nil =>
      cases h
      exact hd
  | cons argument arguments ih =>
      obtain ⟨hargument, harguments⟩ := List.forall_mem_cons.mp hnamed
      rw [mapState, argumentToC_eq] at h
      obtain ⟨r, hr, h⟩ := Option.bind_eq_some_iff.mp h
      obtain ⟨⟨node, s₁⟩, hconvert, rfl⟩ := Option.map_eq_some_iff.mp hr
      obtain ⟨⟨texts', s₂⟩, hmore, h⟩ := Option.map_eq_some_iff.mp h
      cases h
      exact ih harguments
        (define_namesFit hd node (convertArgument_typesFit hhook hargument hconvert)) hmore

theorem isElement_address {d : Dictionary} (h : Defines d) (hnames : NamesFit d.items)
    {text : List Char} (htext : ∃ item ∈ d.items, text = item.address) :
    IsElement text ∧ text ≠ nullPointer := by
  obtain ⟨item, hitem, rfl⟩ := htext
  refine ⟨isElement_of_plain (isPlain_address h hnames hitem), fun heq => ?_⟩
  have hhead : some '&' = some 'N' := congrArg List.head? heq
  exact absurd hhead (by decide)

theorem isElement_null : IsElement nullPointer := isElement_of_plain (by decide)

namespace TemplateState

/-- The row of a template: pointers to its arguments, up to the null pointer. -/
structure Row (spec : HookSpec hook) (s : TemplateState σ) (arrays : List (List (List Char)))
    (encoding : ρ) (template : SyntaxRecord) (index : Nat) (texts : List (List Char))
    (nodes : List CNode) : Prop where
  placed : Placed arrays index (texts ++ [nullPointer])
  addresses : ∀ text ∈ texts, ∃ item ∈ s.argument.items, text = item.address
  shows : ShowsAll s.argument.items nodes texts
  writes : List.Forall₂ (spec.Writes s.hook encoding) template.arguments nodes

/-- What one more template leaves as it is. -/
structure Extends (spec : HookSpec hook) (s s' : TemplateState σ) : Prop where
  le : spec.Le s.hook s'.hook
  grows : s.argument.items <+: s'.argument.items

theorem Row.mono {spec : HookSpec hook} {s s' : TemplateState σ}
    {arrays more : List (List (List Char))} {encoding : ρ} {template : SyntaxRecord} {index : Nat}
    {texts : List (List Char)} {nodes : List CNode} (hext : Extends spec s s')
    (h : Row spec s arrays encoding template index texts nodes) :
    Row spec s' (arrays ++ more) encoding template index texts nodes where
  placed := h.placed.append more
  addresses text htext := by
    obtain ⟨item, hitem, haddress⟩ := h.addresses text htext
    exact ⟨item, hext.grows.subset hitem, haddress⟩
  shows := h.shows.mono hext.grows.subset
  writes := h.writes.imp fun _ _ => spec.mono hext.le

/-- The state behind some templates. -/
structure Reached (spec : HookSpec hook) (s : TemplateState σ) : Prop where
  inv : spec.Inv s.hook
  defines : Defines s.argument

/-- One template: its row is new, and the rows before it stay. -/
theorem processTemplate_spec {spec : HookSpec hook} {encoding : ρ} {s s' : TemplateState σ}
    {template : SyntaxRecord} (hs : Reached spec s)
    (h : processTemplate hook encoding s template = some s') :
    Reached spec s' ∧ Extends spec s s' ∧ s'.encodings = s.encodings ∧
      ∀ arrays, s.arguments.Filled arrays → NamesFit s'.argument.items →
        ∃ more index texts nodes, s'.arguments.Filled (arrays ++ more) ∧
          s'.templates = s.templates ++ [index] ∧
          Row spec s' (arrays ++ more) encoding template index texts nodes := by
  rw [processTemplate] at h
  obtain ⟨⟨texts, hook', d'⟩, htexts, h⟩ := Option.map_eq_some_iff.mp h
  cases h
  obtain ⟨hinv, hle, hd, hgrows, haddresses, nodes, hwrites, hshows⟩ :=
    argumentsToC_spec spec hs.inv hs.defines htexts
  refine ⟨⟨hinv, hd⟩, ⟨hle, hgrows⟩, rfl, fun arrays hfilled hnames => ?_⟩
  have helements : ∀ e ∈ texts ++ [nullPointer], IsElement e := by
    intro e he
    obtain he | he := List.mem_append.mp he
    · exact (isElement_address hd hnames (haddresses e he)).1
    · exact List.mem_singleton.mp he ▸ isElement_null
  obtain ⟨more, hfilled', index, hindex, hplaced⟩ :=
    hfilled.add (List.append_ne_nil_of_right_ne_nil _ (List.cons_ne_nil _ _)) helements
  refine ⟨more, index, texts, nodes, hfilled'.setComment _ _, ?_, hplaced, haddresses, hshows,
    hwrites⟩
  dsimp only
  rw [hindex, Option.getD_some]

theorem Extends.trans {spec : HookSpec hook} {s s' s'' : TemplateState σ} (h : Extends spec s s')
    (h' : Extends spec s' s'') : Extends spec s s'' where
  le := spec.le_trans h.le h'.le
  grows := h.grows.trans h'.grows

/-- The templates of an encoding. -/
theorem foldlM_processTemplate_spec {spec : HookSpec hook} {encoding : ρ} {s s' : TemplateState σ}
    {templates : List SyntaxRecord} (hs : Reached spec s)
    (h : templates.foldlM (processTemplate hook encoding) s = some s') :
    Reached spec s' ∧ Extends spec s s' ∧ s'.encodings = s.encodings ∧
      ∀ arrays, s.arguments.Filled arrays → NamesFit s'.argument.items →
        ∃ more indexes, s'.arguments.Filled (arrays ++ more) ∧
          s'.templates = s.templates ++ indexes ∧
          List.Forall₂ (fun template index => ∃ texts nodes, Row spec s' (arrays ++ more) encoding
            template index texts nodes) templates indexes := by
  induction templates generalizing s with
  | nil =>
      cases h
      refine ⟨hs, ⟨spec.le_refl _, List.prefix_rfl⟩, rfl, fun arrays hfilled _ => ⟨[], [], ?_⟩⟩
      rw [List.append_nil, List.append_nil]
      exact ⟨hfilled, rfl, .nil⟩
  | cons template templates ih =>
      rw [List.foldlM_cons] at h
      obtain ⟨s₁, hfirst, hrest⟩ := Option.bind_eq_some_iff.mp h
      obtain ⟨hs₁, hext, hencodings, hrow⟩ := processTemplate_spec hs hfirst
      obtain ⟨hs', hext', hencodings', hrows⟩ := ih hs₁ hrest
      refine ⟨hs', hext.trans hext', hencodings'.trans hencodings, fun arrays hfilled hnames => ?_⟩
      have hnames₁ : NamesFit s₁.argument.items := fun item hitem =>
        hnames item (hext'.grows.subset hitem)
      obtain ⟨more, index, texts, nodes, hfilled₁, htemplates, hrow⟩ := hrow arrays hfilled hnames₁
      obtain ⟨more', indexes, hfilled', htemplates', hall⟩ := hrows _ hfilled₁ hnames
      refine ⟨more ++ more', index :: indexes, ?_⟩
      rw [← List.append_assoc]
      refine ⟨hfilled', ?_, .cons ⟨texts, nodes, hrow.mono hext'⟩ hall⟩
      rw [htemplates', htemplates, List.append_assoc, List.singleton_append]

/-- The number of the templates of the first `n` encodings. -/
def firstTemplate (records : List (TemplatesRecord ρ)) (n : Nat) : Nat :=
  ((records.take n).map fun record => record.templates.length).sum

/-- What the rows hold behind some encodings. -/
structure Rows (spec : HookSpec hook) (s : TemplateState σ) (arrays : List (List (List Char)))
    (records : List (TemplatesRecord ρ)) : Prop where
  filled : s.arguments.Filled arrays
  templates : s.templates.length = firstTemplate records records.length
  length : s.encodings.length = records.length
  encodings : ∀ {i : Nat} {record : TemplatesRecord ρ}, records[i]? = some record →
    s.encodings[i]? = some (firstTemplate records i, record.templates.length)
  rows : ∀ {i : Nat} {record : TemplatesRecord ρ}, records[i]? = some record →
    ∀ {j : Nat} {template : SyntaxRecord}, record.templates[j]? = some template →
      ∃ index texts nodes, s.templates[firstTemplate records i + j]? = some index ∧
        Row spec s arrays record.encoding template index texts nodes

theorem firstTemplate_append {records : List (TemplatesRecord ρ)} (more : List (TemplatesRecord ρ))
    {n : Nat} (h : n ≤ records.length) :
    firstTemplate (records ++ more) n = firstTemplate records n := by
  rw [firstTemplate, List.take_append_of_le_length h, firstTemplate]

/-- One encoding: its templates have rows one behind another. -/
theorem processTemplates_spec {spec : HookSpec hook} {s s' : TemplateState σ}
    (records : List (TemplatesRecord ρ)) {record : TemplatesRecord ρ} (hs : Reached spec s)
    (h : processTemplates hook s record = some s') :
    Reached spec s' ∧ Extends spec s s' ∧ ∀ arrays, Rows spec s arrays records →
      NamesFit s'.argument.items → ∃ more, Rows spec s' (arrays ++ more) (records ++ [record]) := by
  rw [processTemplates] at h
  obtain ⟨s₁, htemplates, h⟩ := Option.map_eq_some_iff.mp h
  cases h
  obtain ⟨hs₁, hext, hencodings, hrows⟩ := foldlM_processTemplate_spec hs htemplates
  refine ⟨⟨hs₁.inv, hs₁.defines⟩, ⟨hext.le, hext.grows⟩, fun arrays hold hnames => ?_⟩
  obtain ⟨more, indexes, hfilled, hindexes, hall⟩ := hrows arrays hold.filled hnames
  have hlast : firstTemplate (records ++ [record]) records.length = s.templates.length := by
    rw [firstTemplate_append _ (Nat.le_refl _), hold.templates]
  have hcount : indexes.length = record.templates.length := hall.length_eq.symm
  refine ⟨more, hfilled, ?_, ?_, ?_, ?_⟩
  · dsimp only
    rw [hindexes, List.length_append, hold.templates, firstTemplate, firstTemplate,
      List.take_length, List.take_length, List.map_append, List.sum_append, hcount]
    simp
  · simp [hencodings, hold.length]
  · intro i record' hi
    dsimp only
    rw [hencodings]
    obtain hi | ⟨rfl, rfl⟩ := Numbering.getElem?_concat_eq_some_iff.mp hi
    · have hlt := (List.getElem?_eq_some_iff.mp hi).choose
      rw [List.getElem?_append_left (hold.length ▸ hlt), firstTemplate_append _ (Nat.le_of_lt hlt),
        hold.encodings hi]
    · rw [hlast, ← hold.length, List.getElem?_concat_length, hindexes, List.length_append, hcount,
        Nat.add_sub_cancel_left]
  · intro i record' hi j template hj
    dsimp only
    obtain hi | ⟨rfl, rfl⟩ := Numbering.getElem?_concat_eq_some_iff.mp hi
    · have hlt := (List.getElem?_eq_some_iff.mp hi).choose
      obtain ⟨index, texts, nodes, hindex, hrow⟩ := hold.rows hi hj
      refine ⟨index, texts, nodes, ?_, hrow.mono ⟨hext.le, hext.grows⟩⟩
      rw [firstTemplate_append _ (Nat.le_of_lt hlt), hindexes,
        List.getElem?_append_left (List.getElem?_eq_some_iff.mp hindex).choose, hindex]
    · rw [hlast, hindexes, List.getElem?_append_right (Nat.le_add_right _ _),
        Nat.add_sub_cancel_left]
      obtain ⟨hlt, rfl⟩ := List.getElem?_eq_some_iff.mp hj
      obtain ⟨texts, nodes, hrow⟩ := hall.get hlt (hcount ▸ hlt)
      exact ⟨indexes[j], texts, nodes, List.getElem?_eq_getElem _, hrow.placed, hrow.addresses,
        hrow.shows, hrow.writes⟩

/-- The rows behind all encodings. -/
theorem foldlM_processTemplates_spec (spec : HookSpec hook) {start : TemplateState σ}
    {arrays : List (List (List Char))} (hstart : Reached spec start)
    (hrows : Rows spec start arrays []) (records : List (TemplatesRecord ρ)) :
    ∀ s, records.foldlM (processTemplates hook) start = some s → Reached spec s ∧
      (NamesFit s.argument.items → ∃ arrays, Rows spec s arrays records) := by
  induction records using List.reverseRecOn with
  | nil =>
      intro s h
      cases h
      exact ⟨hstart, fun _ => ⟨arrays, hrows⟩⟩
  | append_singleton records record ih =>
      intro s h
      rw [List.foldlM_append] at h
      obtain ⟨s₁, hfirst, hlast⟩ := Option.bind_eq_some_iff.mp h
      rw [List.foldlM_cons] at hlast
      obtain ⟨s₂, hlast, heq⟩ := Option.bind_eq_some_iff.mp hlast
      cases heq
      obtain ⟨hs₁, hold⟩ := ih s₁ hfirst
      obtain ⟨hs, hext, hmore⟩ := processTemplates_spec records hs₁ hlast
      refine ⟨hs, fun hnames => ?_⟩
      obtain ⟨arrays', hold⟩ := hold fun item hitem => hnames item (hext.grows.subset hitem)
      obtain ⟨more, hnew⟩ := hmore arrays' hold hnames
      exact ⟨arrays' ++ more, hnew⟩

end TemplateState

end

/-! ## What a decoder follows -/

theorem readPointers_of_placed {s : Sequence} {arrays : List (List (List Char))}
    (h : s.Filled arrays) {index : Nat} {texts : List (List Char)}
    (hplaced : Placed arrays index (texts ++ [nullPointer]))
    (htexts : ∀ text ∈ texts, text ≠ nullPointer) : readPointers s index = texts := by
  obtain ⟨rest, hrest⟩ := h.table_of_placed hplaced
  have htake : ∀ text ∈ texts, (text != nullPointer) = true := fun text htext =>
    bne_iff_ne.mpr (htexts text htext)
  rw [readPointers, hrest, List.append_assoc, List.takeWhile_append_of_pos htake,
    List.singleton_append, List.takeWhile_cons_of_neg (by simp), List.append_nil]

section

variable {σ ρ : Type} {hook : ρ → Hook σ}

/-- The rows of the tables, in their places: the templates of an encoding stand behind those of the
encodings before it, and the field `arguments` of each leads to pointers to its own arguments, up to
the null pointer. -/
structure RowsOf (spec : HookSpec hook) (s : TemplateState σ)
    (records : List (TemplatesRecord ρ)) : Prop where
  encodings : ∀ {i : Nat} {record : TemplatesRecord ρ}, records[i]? = some record →
    s.encodings[i]? = some (TemplateState.firstTemplate records i, record.templates.length)
  templates : s.templates.length = TemplateState.firstTemplate records records.length
  arguments : ∀ {i : Nat} {record : TemplatesRecord ρ}, records[i]? = some record →
    ∀ {j : Nat} {template : SyntaxRecord}, record.templates[j]? = some template →
      ∃ index nodes, s.templates[TemplateState.firstTemplate records i + j]? = some index ∧
        ShowsAll s.argument.items nodes (readPointers s.arguments index) ∧
        List.Forall₂ (spec.Writes s.hook record.encoding) template.arguments nodes

theorem new_filled_null (name type : List Char) :
    ∃ arrays, ((Sequence.new name type).add [nullPointer]).2.Filled arrays := by
  have helements : ∀ e ∈ [nullPointer], IsElement e := by
    intro e he
    exact List.mem_singleton.mp he ▸ isElement_null
  obtain ⟨more, hfilled, -⟩ :=
    (Sequence.new_filled name type).add (List.cons_ne_nil _ _) helements
  exact ⟨[] ++ more, hfilled⟩

/-- The keys and the types of the arguments are words that can name types. -/
def ArgumentsNamed (records : List (TemplatesRecord ρ)) : Prop :=
  ∀ record ∈ records, ∀ template ∈ record.templates, ∀ argument ∈ template.arguments,
    (Ast.hash argument).Named

theorem templateTables_namesFit {start : σ} {name : List Char} {records : List (TemplatesRecord ρ)}
    {s : TemplateState σ} (hhook : ∀ encoding, KeepsNames (hook encoding))
    (hnamed : ArgumentsNamed records) (h : templateTables hook start name records = some s) :
    NamesFit s.argument.items := by
  refine foldlM_invariant (P := fun s : TemplateState σ => NamesFit s.argument.items) ?_
    (fun item hitem => absurd hitem List.not_mem_nil) h
  intro record hrecord s s' hs hrun
  obtain ⟨s₁, htemplates, rfl⟩ := Option.map_eq_some_iff.mp hrun
  have hnames : NamesFit s₁.argument.items := by
    refine foldlM_invariant (P := fun s : TemplateState σ => NamesFit s.argument.items) ?_ hs
      htemplates
    intro template htemplate s s' hs hrun
    obtain ⟨⟨texts, hook', d'⟩, htexts, rfl⟩ := Option.map_eq_some_iff.mp hrun
    exact argumentsToC_namesFit (hhook record.encoding)
      (hnamed record hrecord template htemplate) hs htexts
  exact hnames

/-- A generator that accepts the arguments fills its tables. -/
theorem exists_templateTables {accepted : Ast → Prop}
    (haccepts : ∀ encoding node s, accepted node → ∃ p, (hook encoding).process node s = some p ∧
      ∀ child ∈ writtenBelow p.1, accepted child)
    {records : List (TemplatesRecord ρ)}
    (hrecords : ∀ record ∈ records, ∀ template ∈ record.templates,
      ∀ argument ∈ template.arguments, accepted (.hash argument))
    (start : σ) (name : List Char) : ∃ s, templateTables hook start name records = some s := by
  refine exists_foldlM (fun record hrecord s => ?_) _
  have htemplates :
      ∃ s', record.templates.foldlM (processTemplate hook record.encoding) s = some s' := by
    refine exists_foldlM (fun template htemplate s => ?_) _
    have harguments : ∃ r, mapState (argumentToC hook record.encoding) template.arguments
        (s.hook, s.argument) = some r := by
      refine exists_mapState (fun argument hargument s => ?_) _
      obtain ⟨r, hr⟩ := exists_convertBy (haccepts record.encoding)
        (hrecords record hrecord template htemplate argument hargument) (Nat.lt_succ_self _)
        (Ast.get argument "type".toList).text s.1
      exact ⟨_, (argumentToC_eq _ _ _ _).trans (congrArg (Option.map _) hr)⟩
    obtain ⟨r, hr⟩ := harguments
    exact ⟨_, congrArg (Option.map _) hr⟩
  obtain ⟨s', hs'⟩ := htemplates
  exact ⟨_, congrArg (Option.map _) hs'⟩

/-- The tables that a generator has filled. -/
theorem templateTables_spec (spec : HookSpec hook) {start : σ} (hstart : spec.Inv start)
    {name : List Char} {records : List (TemplatesRecord ρ)} {s : TemplateState σ}
    (hhook : ∀ encoding, KeepsNames (hook encoding)) (hnamed : ArgumentsNamed records)
    (h : templateTables hook start name records = some s) :
    Defines s.argument ∧ NamesFit s.argument.items ∧ RowsOf spec s records := by
  obtain ⟨arrays, hfilled⟩ := new_filled_null name "void*".toList
  obtain ⟨hs, hrows⟩ := TemplateState.foldlM_processTemplates_spec spec ⟨hstart, new_defines⟩
    ⟨hfilled, rfl, rfl, fun h => (by cases h), fun h => (by cases h)⟩ records s h
  have hnames := templateTables_namesFit hhook hnamed h
  obtain ⟨arrays', hrows⟩ := hrows hnames
  refine ⟨hs.defines, hnames, hrows.encodings, hrows.templates, fun hi _ _ hj => ?_⟩
  obtain ⟨index, texts, nodes, hindex, hrow⟩ := hrows.rows hi hj
  have htexts : ∀ text ∈ texts, text ≠ nullPointer := fun text htext =>
    (isElement_address hs.defines hnames (hrow.addresses text htext)).2
  refine ⟨index, nodes, hindex, ?_, hrow.writes⟩
  rw [readPointers_of_placed hrows.filled hrow.placed htexts]
  exact hrow.shows

end

theorem nodup_map_of_inj {α β : Type} {f : α → β} {l : List α}
    (h : ∀ {i j : Nat} {a b : α}, l[i]? = some a → l[j]? = some b → f a = f b → i = j) :
    (l.map f).Nodup := by
  rw [List.nodup_iff_getElem?_ne_getElem?]
  intro i j hij hj heq
  rw [List.length_map] at hj
  rw [List.getElem?_map, List.getElem?_map, List.getElem?_eq_getElem hj,
    List.getElem?_eq_getElem (Nat.lt_trans hij hj)] at heq
  have hsame := h (List.getElem?_eq_getElem (Nat.lt_trans hij hj)) (List.getElem?_eq_getElem hj)
    (Option.some.inj heq)
  exact absurd hsame (Nat.ne_of_lt hij)

/-- What a decoder finds in the tables: the rows in their places, definitions that refer to those in
front of them only, none with the name or the text of another, and behind a pointer one value, up to
the types of its objects. -/
structure Leads {σ ρ : Type} {hook : ρ → Hook σ} (spec : HookSpec hook)
    (records : List (TemplatesRecord ρ)) (s : TemplateState σ) : Prop where
  rows : RowsOf spec s records
  inOrder : InOrder s.argument.items
  links : (s.argument.items.map DictionaryItem.link).Nodup
  data : (s.argument.items.map DictionaryItem.data).Nodup
  unique : ∀ {node node' : CNode} {text : List Char}, Plain s.argument.items node →
    Plain s.argument.items node' → Shows s.argument.items node text →
    Shows s.argument.items node' text → node.erase = node'.erase

theorem templateTables_lead {σ ρ : Type} {hook : ρ → Hook σ} (spec : HookSpec hook) {start : σ}
    (hstart : spec.Inv start) {name : List Char} {records : List (TemplatesRecord ρ)}
    {s : TemplateState σ} (hhook : ∀ encoding, KeepsNames (hook encoding))
    (hnamed : ArgumentsNamed records) (h : templateTables hook start name records = some s) :
    Leads spec records s := by
  obtain ⟨hdefines, hnames, hrows⟩ := templateTables_spec spec hstart hhook hnamed h
  exact {
    rows := hrows
    inOrder := hdefines.inOrder
    links := nodup_map_of_inj (hdefines.holds.link_inj fun item hitem => (hnames item hitem).2)
    data := nodup_map_of_inj hdefines.holds.data_inj
    unique := fun hplain hplain' hshows hshows' =>
      hshows.unique hdefines hnames hshows' hplain hplain' }

end Amed.Generator
