import WireModel.Proofs.Defaults
import WireModel.Proofs.MemberNames
import WireModel.Proofs.Slots

/-!
# Constructors initialize

A field of a generated class holds `null` only if the property allows it. That is decided in four
places: loading checks defaults, a check of its own compares arguments with properties, and the
constructor has a rule for what a parameter is when it is left out and another for what is assigned.

`Initializes` says what the two texts of an argument may be, in view of its property: there are four
forms, and in the one where `null` can be passed to a required property, the assignment replaces it
by the default. **`Model.constructors_initialize`**: the constructor of every generated class
consists of such texts, and it assigns every field once.
-/

namespace WireModel

open TypeScript Codec

/-! ## Lines of a constructor -/

namespace TypeScript

/-- Lines with a comma behind each of them but the last. -/
def commaSeparated : List String → List String
  | [] => []
  | [line] => [line]
  | line :: rest => (line ++ ",") :: commaSeparated rest

/-- The lines of a constructor, from the text of each parameter and of the statement that assigns
it. Without parameters there are none. -/
def constructorLines (entries : List (String × String)) : List String :=
  if entries.isEmpty then []
  else
    "constructor(" :: (commaSeparated (entries.map (·.1))
      ++ ") \x7b" :: (entries.map (·.2) ++ ["\x7d"]))

namespace ParameterDeclaration

/-- The texts of a parameter and of its assignment. -/
def texts (p : ParameterDeclaration) : String × String := ((p.row "").text, p.assignment.text)

theorem text_row (p : ParameterDeclaration) (ending : String) :
    (p.row ending).text = (p.row "").text ++ ending := by
  unfold row
  cases p.initializer with
  | none => simp
  | some value => simp [Row.text, Piece.text, String.append_assoc]

theorem texts_fst_of_none {p : ParameterDeclaration} (h : p.initializer = none) :
    p.texts.1 = p.name ++ ": " ++ p.type.text "" := by
  simp [texts, row, h]

theorem texts_fst_of_some {p : ParameterDeclaration} {value : Value}
    (h : p.initializer = some value) :
    p.texts.1 = p.name ++ ": " ++ p.type.text "" ++ " = " ++ value.piece.text := by
  simp [texts, row, h, Row.text, Piece.text]

theorem texts_fst_of_null {p : ParameterDeclaration} (h : p.initializer = some .null) :
    p.texts.1 = p.name ++ ": " ++ p.type.text "" ++ " = null" := by
  rw [texts_fst_of_some h, String.append_assoc]
  rfl

theorem texts_snd_of_none {p : ParameterDeclaration} (h : p.fallback = none) :
    p.texts.2 = "this." ++ p.field ++ " = " ++ p.name ++ ";" := by
  simp [texts, assignment, h]

theorem texts_snd_of_some {p : ParameterDeclaration} {value : Value} (h : p.fallback = some value) :
    p.texts.2 = "this." ++ p.field ++ " = " ++ p.name ++ " ?? " ++ value.piece.text ++ ";" := by
  simp [texts, assignment, h, Row.text, Piece.text, String.append_assoc]

theorem map_text_rows (parameters : List ParameterDeclaration) :
    (rows parameters).map Row.text = commaSeparated (parameters.map fun p => p.texts.1) := by
  fun_induction rows parameters with
  | case1 => rfl
  | case2 p => rfl
  | case3 p rest hrest ih =>
    obtain ⟨q, others, rfl⟩ := List.exists_cons_of_ne_nil hrest
    rw [List.map_cons, ih, text_row]
    rfl

end ParameterDeclaration

theorem map_text_constructorRows (parameters : List ParameterDeclaration) :
    (constructorRows parameters).map Row.text
      = constructorLines (parameters.map ParameterDeclaration.texts) := by
  unfold constructorRows constructorLines
  cases parameters with
  | nil => rfl
  | cons p rest =>
    rw [if_neg (by simp), if_neg (by simp)]
    simp only [List.map_append, ParameterDeclaration.map_text_rows, List.map_map, List.append_assoc]
    rfl

/-! ## Fields that rows assign -/

/-- The field of the instance that a row assigns to. -/
def Row.assigned? (r : Row) : Option String :=
  match r.leading with
  | 't' :: 'h' :: 'i' :: 's' :: '.' :: rest =>
    some (String.ofList (rest.takeWhile Name.isPlainChar))
  | _ => none

/-- A row that begins with another letter assigns nothing. -/
theorem Row.assigned?_of_head {r : Row} (h : r.leading.head? ≠ some 't') : r.assigned? = none := by
  unfold assigned?
  split
  · next heq => exact absurd (by rw [heq]; rfl) h
  · rfl

/-- A row that declares a name assigns nothing, also if the name begins with `this`. -/
theorem Row.assigned?_of_colon {r : Row} {name : String} {rest : List Char}
    (hname : Name.IsWord name) (h : r.leading = name.toList ++ ':' :: rest) :
    r.assigned? = none := by
  unfold assigned?
  split
  · next tail heq =>
    have hdrop : (name.toList ++ ':' :: rest).dropWhile Name.isPlainChar = ':' :: rest := by
      rw [List.dropWhile_append_of_pos hname.2, List.dropWhile_cons_of_neg (by decide)]
    -- behind the word comes a colon and not a point
    rw [← h, heq] at hdrop
    exact absurd (List.cons.inj hdrop).1 (by decide)
  · rfl

namespace Block

def assignedFields (rows : Block) : List String := rows.flatMap fun r => r.assigned?.toList

@[simp] theorem assignedFields_append (rows rest : Block) :
    assignedFields (rows ++ rest) = rows.assignedFields ++ rest.assignedFields :=
  List.flatMap_append

theorem assignedFields_cons (r : Row) (rows : Block) :
    assignedFields (r :: rows) = r.assigned?.toList ++ rows.assignedFields := rfl

theorem assignedFields_eq_nil {rows : Block} (h : ∀ r ∈ rows, r.assigned? = none) :
    rows.assignedFields = [] :=
  List.flatMap_eq_nil_iff.mpr fun r hr => by rw [h r hr]; rfl

@[simp] theorem assignedFields_docRows (level : Nat) (paragraphs : List String) :
    assignedFields (docRows level paragraphs) = [] :=
  assignedFields_eq_nil (List.forall_mem_map.mpr fun _ _ => rfl)

end Block

theorem FieldDeclaration.assignedFields_rows {f : FieldDeclaration} (h : Name.IsWord f.name) :
    Block.assignedFields f.rows = [] := by
  have hrow : (Row.code 1 (f.name ++ ": " ++ f.type.text "" ++ ";")).assigned? = none := by
    have hleading : (f.name ++ ": " ++ f.type.text "" ++ ";").toList
        = f.name.toList ++ ':' :: ' ' :: ((f.type.text "").toList ++ [';']) := by
      simp
    exact Row.assigned?_of_colon h hleading
  rw [rows, Block.assignedFields_append, Block.assignedFields_docRows, Block.assignedFields_cons,
    hrow]
  rfl

namespace ParameterDeclaration

theorem assigned?_row {p : ParameterDeclaration} (h : Name.IsWord p.name) (ending : String) :
    (p.row ending).assigned? = none := by
  unfold row
  cases p.initializer with
  | none =>
    have hleading : (p.name ++ ": " ++ p.type.text "" ++ ending).toList
        = p.name.toList ++ ':' :: ' ' :: ((p.type.text "").toList ++ ending.toList) := by
      simp
    exact Row.assigned?_of_colon h hleading
  | some value =>
    have hleading : (p.name ++ ": " ++ p.type.text "" ++ " = ").toList
        = p.name.toList ++ ':' :: ' ' :: ((p.type.text "").toList ++ " = ".toList) := by
      simp
    exact Row.assigned?_of_colon h hleading

theorem assignedFields_rows {parameters : List ParameterDeclaration}
    (h : ∀ p ∈ parameters, Name.IsWord p.name) : Block.assignedFields (rows parameters) = [] := by
  refine Block.assignedFields_eq_nil ?_
  fun_induction rows parameters with
  | case1 => exact List.forall_mem_nil _
  | case2 p => exact List.forall_mem_singleton.mpr (assigned?_row (h p List.mem_cons_self) "")
  | case3 p rest hrest ih =>
    obtain ⟨hp, hothers⟩ := List.forall_mem_cons.mp h
    exact List.forall_mem_cons.mpr ⟨assigned?_row hp ",", ih hothers⟩

/-- The assignment of a parameter assigns its field. -/
theorem assigned?_assignment {p : ParameterDeclaration} (h : Name.IsWord p.field) :
    p.assignment.assigned? = some p.field := by
  have hleading : ∃ rest, p.assignment.leading
      = 't' :: 'h' :: 'i' :: 's' :: '.' :: (p.field.toList ++ ' ' :: rest) := by
    unfold assignment
    cases p.fallback with
    | none => exact ⟨'=' :: ' ' :: (p.name.toList ++ [';']), by simp⟩
    | some value => exact ⟨'=' :: ' ' :: (p.name.toList ++ " ?? ".toList), by simp⟩
  obtain ⟨rest, hleading⟩ := hleading
  unfold Row.assigned?
  rw [hleading]
  show some (String.ofList (List.takeWhile _ _)) = _
  rw [List.takeWhile_append_of_pos h.2, List.takeWhile_cons_of_neg (by decide), List.append_nil,
    String.ofList_toList]

end ParameterDeclaration

theorem assignedFields_constructorRows {parameters : List ParameterDeclaration}
    (h : ∀ p ∈ parameters, Name.IsWord p.name ∧ Name.IsWord p.field) :
    (constructorRows parameters).assignedFields = parameters.map (·.field) := by
  have hassignments : Block.assignedFields (parameters.map ParameterDeclaration.assignment)
      = parameters.map (·.field) := by
    unfold Block.assignedFields
    rw [List.flatMap_map, List.map_eq_flatMap]
    refine List.flatMap_congr fun p hp => ?_
    rw [ParameterDeclaration.assigned?_assignment (h p hp).2]
    rfl
  unfold constructorRows
  split
  · next hempty =>
    rw [List.isEmpty_iff.mp hempty]
    rfl
  · have hopening : Block.assignedFields [.code 1 "constructor("] = [] := by decide
    have hmiddle : Block.assignedFields [.code 1 ") \x7b"] = [] := by decide
    have hclosing : Block.assignedFields [.code 1 "\x7d"] = [] := by decide
    simp only [Block.assignedFields_append, hassignments, hopening, hmiddle, hclosing,
      ParameterDeclaration.assignedFields_rows fun p hp => (h p hp).1, List.nil_append,
      List.append_nil]

theorem assignedFields_bracedRows {head : String} (hhead : head.toList.head? = some 'e')
    (members : Block) : (bracedRows head members).assignedFields = members.assignedFields := by
  have hrow : ∀ tail, (Row.code 0 (head ++ tail)).assigned? = none := by
    refine fun tail => Row.assigned?_of_head ?_
    rw [Row.leading_code, String.toList_append, List.head?_append, hhead, Option.some_or]
    decide
  unfold bracedRows
  split
  · next hempty =>
    rw [Block.assignedFields_cons, hrow, List.isEmpty_iff.mp hempty]
    rfl
  · have hclosing : Block.assignedFields [.code 0 "\x7d"] = [] := by decide
    rw [Block.assignedFields_cons, hrow, Block.assignedFields_append, hclosing, List.append_nil]
    rfl

theorem assignedFields_visitRows (method : String) : (visitRows method).assignedFields = [] := by
  have hreturn : (Row.code 2 ("return transformer." ++ method ++ "(this);")).assigned? = none :=
    Row.assigned?_of_head (by simp)
  unfold visitRows
  rw [Block.assignedFields_cons, Block.assignedFields_cons, hreturn]
  decide

/-- **A class assigns the fields of its parameters**, in their order. -/
theorem Declaration.assignedFields_emit {doc : Doc} {name : String} {bases : List String}
    {fields : List FieldDeclaration} {parameters : List ParameterDeclaration} {visit : String}
    (hfields : ∀ f ∈ fields, Name.IsWord f.name)
    (hparameters : ∀ p ∈ parameters, Name.IsWord p.name ∧ Name.IsWord p.field)
    (snippets : Snippets) :
    ((Declaration.classType doc name bases fields parameters visit).emit snippets).1.assignedFields
      = parameters.map (·.field) := by
  have hrows : Block.assignedFields (fields.flatMap FieldDeclaration.rows) = [] := by
    unfold Block.assignedFields
    rw [List.flatMap_assoc]
    exact List.flatMap_eq_nil_iff.mpr fun f hf =>
      FieldDeclaration.assignedFields_rows (hfields f hf)
  have hjoined : (joinBlocks [fields.flatMap FieldDeclaration.rows, constructorRows parameters,
      visitRows visit]).assignedFields = parameters.map (·.field) := by
    refine (flatMap_joinBlocks rfl _).trans ?_
    show Block.assignedFields _ ++ (Block.assignedFields _ ++ (Block.assignedFields _ ++ [])) = _
    rw [hrows, assignedFields_constructorRows hparameters, assignedFields_visitRows]
    simp
  show Block.assignedFields (docRows 0 doc ++ bracedRows _ _) = _
  rw [Block.assignedFields_append, Block.assignedFields_docRows,
    assignedFields_bracedRows (by simp), hjoined, List.nil_append]

/-- The members of a class stand between its braces. -/
theorem Declaration.infix_emit {doc : Doc} {name : String} {bases : List String}
    {fields : List FieldDeclaration} {parameters : List ParameterDeclaration} {visit : String}
    {members : Block} (h : members ∈ [fields.flatMap FieldDeclaration.rows,
      constructorRows parameters, visitRows visit]) (snippets : Snippets) :
    members
      <:+: ((Declaration.classType doc name bases fields parameters visit).emit snippets).1 := by
  cases members with
  | nil => exact List.nil_infix
  | cons r rest =>
    have hkept := List.mem_filter (p := fun b : Block => !b.isEmpty) |>.mpr ⟨h, rfl⟩
    have hjoined := infix_intercalate [Row.blank] hkept
    have hbraced : ∀ head, ∀ rows : Block, rows <:+: bracedRows head rows := by
      intro head rows
      unfold bracedRows
      split
      · next hempty =>
        rw [List.isEmpty_iff.mp hempty]
        exact List.nil_infix
      · exact ⟨[_], [_], rfl⟩
    exact (hjoined.trans (hbraced _ _)).trans (List.suffix_append _ _).isInfix

end TypeScript

/-! ## What a constructor does with an argument -/

/-- The name of the field of a property and of the parameter that it is assigned. -/
def Property.binding (q : Property) : String := bindingName (Name.camel q.name)

/-- The statement that assigns a parameter to its field as it is. -/
def Property.plainAssignment (q : Property) : String :=
  "this." ++ q.binding ++ " = " ++ q.binding ++ ";"

/-- The expression that is written for a default of an argument of a type. -/
def Table.expressionOf (t : Table) (type : FieldType Atom) (d : Default) : Except Fault String :=
  (t.strategy type).map fun s => (Value.ofDefault s d).piece.text

/-- What the texts of a parameter and of its assignment may be for an argument `a`, if `q` is its
property and `type` is the type of the field. -/
inductive Initializes (t : Table) (a : Argument) (q : Property) (type : String) :
    String → String → Prop where
  /-- A required property: what is passed is of its type, and it is assigned. -/
  | required (htype : a.type = q.type) (hq : q.type.isOptional = false) :
      Initializes t a q type (q.binding ++ ": " ++ type) q.plainAssignment
  /-- A required property with a default, which is assigned instead of `null`. -/
  | fallback {d : Default} {text : String} (hoptional : a.type.isOptional = true)
      (htype : a.type.required = q.type) (hq : q.type.isOptional = false)
      (hd : a.default = some d) (htext : t.expressionOf a.type d = .ok text)
      (hdenoted : d.DenotedBy t q.type.item text) :
      Initializes t a q type (q.binding ++ ": " ++ type ++ " | null = null")
        ("this." ++ q.binding ++ " = " ++ q.binding ++ " ?? " ++ text ++ ";")
  /-- An optional property, which is `null` if nothing is passed. -/
  | optional (htype : a.type = q.type) (hq : q.type.isOptional = true) (hd : a.default = none) :
      Initializes t a q type (q.binding ++ ": " ++ type ++ " = null") q.plainAssignment
  /-- An optional property with a default, which it is if nothing is passed. -/
  | default {d : Default} {text : String} (htype : a.type = q.type)
      (hq : q.type.isOptional = true) (hd : a.default = some d)
      (htext : t.expressionOf a.type d = .ok text) (hdenoted : d.DenotedBy t q.type.item text) :
      Initializes t a q type (q.binding ++ ": " ++ type ++ " = " ++ text) q.plainAssignment

/-- The rows of a class have a constructor that initializes every field. -/
structure Class.Initialized (t : Table) (c : Class) (rows : Block) : Prop where
  /-- For each argument the constructor has a parameter and an assignment, in view of the type
  that the field of its property is declared with. -/
  initializes : ∃ entries : List (String × String),
    List.Forall₂ (fun a entry => ∀ q ∈ c.properties, q.name = a.name →
      ∃ s, t.strategy q.type = .ok s
        ∧ q.binding ++ ": " ++ (TypeExpr.ofStrategy s).text "" ++ ";" ∈ rows.map Row.text
        ∧ Initializes t a q ((TypeExpr.ofStrategy s).text "") entry.1 entry.2) c.arguments entries
      ∧ constructorLines entries <:+: rows.map Row.text
  covers : ∀ q ∈ c.properties, ∃ a ∈ c.arguments, a.name = q.name
  assigned_perm : rows.assignedFields.Perm (c.properties.map Property.binding)
  assigned_nodup : rows.assignedFields.Nodup

/-- The fields of all arguments are those of all properties. -/
theorem Class.Sound.bindings_perm {key : String} {t : Table} {c : Class} (h : c.Sound key t) :
    (c.arguments.map fun a => bindingName (Name.camel a.name)).Perm
      (c.properties.map Property.binding) := by
  have harguments := bindingNames_nodup (fun a ha => h.isIdentifier_argument ha)
    h.wires_arguments_nodup
  have hproperties := bindingNames_nodup h.properties_identified h.wires_distinct
  refine (List.perm_ext_iff_of_nodup harguments hproperties).mpr fun name => ?_
  constructor
  · intro hname
    obtain ⟨a, ha, rfl⟩ := List.mem_map.mp hname
    obtain ⟨q, hq, heq⟩ := h.exists_property ha
    exact List.mem_map.mpr ⟨q, hq, by rw [heq]⟩
  · intro hname
    obtain ⟨q, hq, rfl⟩ := List.mem_map.mp hname
    obtain ⟨a, ha, heq⟩ := h.exists_argument hq
    exact List.mem_map.mpr ⟨a, ha, by rw [heq]⟩

/-- The plan of a class has the member of each of its properties. -/
theorem Codec.ClassPlan.Plans.exists_member? {t : Table} {c : Class} {p : ClassPlan}
    (h : p.Plans t c) (hnames : (c.properties.map (·.name)).Nodup) {q : Property}
    (hq : q ∈ c.properties) : ∃ m, p.member? q.name = some m ∧ m.Plans t q := by
  obtain ⟨m, hm, hplans⟩ := exists_of_mem_forall₂ h.members hq
  have hmembers : p.members.map (·.property.name) = c.properties.map (·.name) :=
    map_eq_of_forall₂ h.members fun _ _ hplans => by rw [hplans.property_eq]
  refine ⟨m, (find?_key_eq_some_iff (hmembers ▸ hnames)).mpr ⟨hm, ?_⟩, hplans⟩
  rw [hplans.property_eq]

/-- The class declares the field of each of its properties with its type. -/
theorem Codec.ClassPlan.Plans.mem_fieldTexts {t : Table} {c : Class} {p : ClassPlan}
    (h : p.Plans t c) {q : Property} (hq : q ∈ c.properties) {r : Strategy}
    (hr : t.strategy q.type = .ok r) :
    q.binding ++ ": " ++ (TypeExpr.ofStrategy r).text "" ++ ";"
      ∈ ((p.members.map (Declaration.fieldOf t)).flatMap FieldDeclaration.rows).map Row.text := by
  obtain ⟨m, hm, hplans⟩ := exists_of_mem_forall₂ h.members hq
  obtain rfl : m.strategy = r := Except.ok.inj (hplans.strategy_eq.symm.trans hr)
  have hbinding : bindingName m.wire = q.binding := by
    rw [hplans.wire_eq]
    rfl
  refine List.mem_map.mpr ⟨_, List.mem_flatMap.mpr ⟨_, List.mem_map_of_mem hm,
    List.mem_append_right _ List.mem_cons_self⟩, ?_⟩
  rw [← hbinding]
  exact Row.text_code 1 _

/-- A field of the optional version of a type may be `null`. -/
theorem Table.typeText_of_isOptional {t : Table} {type : FieldType Atom} {s r : Strategy}
    (h : type.isOptional = true) (hs : t.strategy type = .ok s)
    (hr : t.strategy type.required = .ok r) :
    (TypeExpr.ofStrategy s).text "" = (TypeExpr.ofStrategy r).text "" ++ " | null" := by
  obtain ⟨carrier, hcarrier, rfl⟩ := strategy_eq_ok_iff.mp hs
  obtain rfl : r = type.required.withItem carrier :=
    Except.ok.inj (hr.symm.trans (strategy_eq_ok_iff.mpr ⟨carrier, hcarrier, rfl⟩))
  have hoptional : (type.withItem carrier).isOptional = true := h
  rw [TypeExpr.ofStrategy, if_pos hoptional]
  rfl

/-- What the constructor of a class does with an argument, in terms of the class. -/
theorem Codec.ClassPlan.Plans.parameterOf_eq {t : Table} {c : Class} {p : ClassPlan}
    (h : p.Plans t c) (hnames : (c.properties.map (·.name)).Nodup) {a : Argument}
    {parameter : Parameter} (hparameter : parameter.Plans t a) {q : Property}
    (hq : q ∈ c.properties) (hname : q.name = a.name) :
    Declaration.parameterOf p parameter =
      { name := q.binding
        type := .ofStrategy parameter.strategy
        initializer :=
          if a.type.isOptional then
            some (if q.type.isOptional then
              (a.default.map (Value.ofDefault parameter.strategy)).getD .null else .null)
          else none
        field := q.binding
        fallback :=
          if a.type.isOptional ∧ q.type.isOptional = false then
            a.default.map (Value.ofDefault parameter.strategy)
          else none } := by
  obtain ⟨m, hm, hplans⟩ := h.exists_member? hnames hq
  rw [hname] at hm
  have hbinding : bindingName parameter.wire = q.binding := by
    rw [hparameter.wire_eq, ← hname]
    rfl
  unfold Declaration.parameterOf
  simp only [hbinding, hparameter.argument_eq, hm, Option.map_some, Option.some.injEq,
    Table.isOptional_of_strategy hparameter.strategy_eq,
    Table.isOptional_of_strategy hplans.strategy_eq]

namespace Document.Clean

variable {key : String} {document : Document} (h : document.Clean key) (hid : document.Identified)
  (hsilent : document.table.constructorDiagnostics = []) {c : Class}
  (hc : c ∈ document.table.classes) {p : ClassPlan} (hp : p.Plans document.table c)

include h hid hc

/-- The expression that is written for the default of an argument stands for it. -/
theorem expression_denotes {a : Argument} (ha : a ∈ c.arguments) {d : Default}
    (hd : a.default = some d) {s : Strategy} (hs : document.table.strategy a.type = .ok s) :
    document.table.expressionOf a.type d = .ok (Value.ofDefault s d).piece.text
      ∧ d.DenotedBy document.table a.type.item (Value.ofDefault s d).piece.text := by
  obtain ⟨hlist, hitem⟩ := h.default_ofItem hc ha hd
  obtain ⟨carrier, hcarrier, rfl⟩ := Table.strategy_eq_ok_iff.mp hs
  refine ⟨?_, h.denotedBy hid hitem hlist hcarrier⟩
  rw [Table.expressionOf, hs]
  rfl

include hsilent hp

/-- **The texts of an argument initialize the field of its property.** -/
theorem initializes_of_plans {a : Argument} (ha : a ∈ c.arguments) {parameter : Parameter}
    (hparameter : parameter.Plans document.table a) {q : Property} (hq : q ∈ c.properties)
    (hname : q.name = a.name) {r : Strategy} (hr : document.table.strategy q.type = .ok r) :
    Initializes document.table a q ((TypeExpr.ofStrategy r).text "")
      (Declaration.parameterOf p parameter).texts.1
      (Declaration.parameterOf p parameter).texts.2 := by
  have hsound := (h.linked_table hid).sound
  have hs := hparameter.strategy_eq
  have heq := hp.parameterOf_eq (hsound.classes c hc).names_nodup hparameter hq hname
  generalize Declaration.parameterOf p parameter = declaration at heq ⊢
  rcases hsound.type_eq_of_silent hsilent hc ha hq hname with htype | ⟨hoptional, htype, hdefault⟩
  · -- one type, so the field has the type of the parameter
    obtain rfl : parameter.strategy = r := Except.ok.inj (hs.symm.trans (htype ▸ hr))
    have hplain : declaration.fallback = none := by
      rw [heq]
      simp [htype]
    cases hq' : q.type.isOptional with
    | false =>
      have hnone : declaration.initializer = none := by
        rw [heq]
        simp [htype, hq']
      rw [declaration.texts_fst_of_none hnone, declaration.texts_snd_of_none hplain, heq]
      dsimp only
      exact .required htype hq'
    | true =>
      cases hd : a.default with
      | none =>
        have hnull : declaration.initializer = some .null := by
          rw [heq]
          simp [htype, hq', hd]
        rw [declaration.texts_fst_of_null hnull, declaration.texts_snd_of_none hplain, heq]
        dsimp only
        exact .optional htype hq' hd
      | some d =>
        obtain ⟨htext, hdenoted⟩ := h.expression_denotes hid hc ha hd hs
        have hvalue : declaration.initializer = some (Value.ofDefault parameter.strategy d) := by
          rw [heq]
          simp [htype, hq', hd]
        rw [declaration.texts_fst_of_some hvalue, declaration.texts_snd_of_none hplain, heq]
        rw [htype] at hdenoted
        dsimp only
        exact .default htype hq' hd htext hdenoted
  · -- the parameter has the optional version of the type of the field
    obtain ⟨d, hd⟩ := Option.isSome_iff_exists.mp hdefault
    obtain ⟨htext, hdenoted⟩ := h.expression_denotes hid hc ha hd hs
    have hq' : q.type.isOptional = false := by
      rw [← htype]
      rfl
    have hnull : declaration.initializer = some .null := by
      rw [heq]
      simp [hoptional, hq']
    have hvalue : declaration.fallback = some (Value.ofDefault parameter.strategy d) := by
      rw [heq]
      simp [hoptional, hq', hd]
    rw [← htype] at hr
    have hparameter : declaration.texts.1
        = q.binding ++ ": " ++ (TypeExpr.ofStrategy r).text "" ++ " | null = null" := by
      rw [declaration.texts_fst_of_null hnull, heq]
      simp only [Table.typeText_of_isOptional hoptional hs hr, ← String.append_assoc]
      rw [String.append_assoc]
      rfl
    rw [hparameter, declaration.texts_snd_of_some hvalue, heq]
    dsimp only
    refine .fallback hoptional htype hq' hd htext ?_
    rw [← htype]
    exact hdenoted

/-- A class that is generated initializes its fields. -/
theorem initialized_of_plans (hhand : c.isHandwritten = false) (snippets : Snippets) :
    c.Initialized document.table
      ((Declaration.classOf document.table p).emit snippets).1 := by
  have hlinked := h.linked_table hid
  have hsound := hlinked.sound.classes c hc
  have hclass : Declaration.classOf document.table p
      = .classType (docParagraphs document.table p.type.description) (typeName p.name)
        (Declaration.implemented p) (p.members.map (Declaration.fieldOf document.table))
        (p.parameters.map (Declaration.parameterOf p)) (transformName p.name) := by
    rw [Declaration.classOf, hp.type_eq, if_neg (by simp [hhand])]
  have hassigned : ((Declaration.classOf document.table p).emit snippets).1.assignedFields
      = c.arguments.map fun a => bindingName (Name.camel a.name) := by
    rw [hclass, Declaration.assignedFields_emit, List.map_map]
    · exact map_eq_of_forall₂ hp.parameters fun a parameter hparameter =>
        congrArg bindingName hparameter.wire_eq
    · refine List.forall_mem_map.mpr fun m hm => ?_
      obtain ⟨q, hq, hplans⟩ := exists_of_mem_forall₂ hp.members.flip hm
      exact (hlinked.fieldOf_within hc hq hplans).name
    · refine List.forall_mem_map.mpr fun parameter hparameter => ?_
      obtain ⟨a, ha, hplans⟩ := exists_of_mem_forall₂ hp.parameters.flip hparameter
      have hwithin := hlinked.parameterOf_within hc ha p hplans
      exact ⟨hwithin.name, hwithin.field⟩
  constructor
  case initializes =>
    refine ⟨(p.parameters.map (Declaration.parameterOf p)).map ParameterDeclaration.texts, ?_, ?_⟩
    · rw [List.map_map, List.forall₂_map_right_iff]
      have hboth := (List.forall₂_and_left _ _).mpr
        ⟨fun a (ha : a ∈ c.arguments) => ha, hp.parameters⟩
      refine hboth.imp fun a parameter ⟨ha, hparameter⟩ q hq hname => ?_
      obtain ⟨r, hr⟩ := hlinked.sound.exists_strategy (hsound.properties_known q hq)
      refine ⟨r, hr, ?_, h.initializes_of_plans hid hsilent hc hp ha hparameter hq hname hr⟩
      rw [hclass]
      exact ((Declaration.infix_emit List.mem_cons_self snippets).map Row.text).subset
        (hp.mem_fieldTexts hq hr)
    · rw [← map_text_constructorRows, hclass]
      exact (Declaration.infix_emit (by simp) snippets).map Row.text
  case covers => exact fun q hq => hsound.exists_argument hq
  case assigned_perm => exact hassigned ▸ hsound.bindings_perm
  case assigned_nodup =>
    rw [hassigned]
    exact bindingNames_nodup (fun a ha => hsound.isIdentifier_argument ha)
      hsound.wires_arguments_nodup

end Document.Clean

/-- **Constructors initialize every field.** Nothing stores `null` in a required property: the
constructor of a class takes a value of its type, or it replaces `null` by a default of its type. -/
theorem Model.constructors_initialize {key : String} {value : Json} {table : Table}
    (h : Model.load key value = .ok table) (hsilent : table.constructorDiagnostics = [])
    (snippets : Snippets) :
    ∃ plan, Plan.of table = .ok plan
      ∧ ∀ c ∈ table.concreteClasses, c.isHandwritten = false →
        ∃ p ∈ plan.concreteClasses, p.type = c
          ∧ c.Initialized table ((Declaration.classOf table p).emit snippets).1 := by
  obtain ⟨document, -, hclean, hid, rfl⟩ := Model.clean_of_load h
  obtain ⟨plan, hplan⟩ := (hclean.linked_table hid).sound.exists_plan
  refine ⟨plan, hplan, fun c hc hhand => ?_⟩
  obtain ⟨hclass, -⟩ := List.mem_filter.mp hc
  obtain ⟨p, hp, hplans⟩ := (Plan.plans_of_eq_ok hplan).exists_of_mem_concreteClasses hc
  exact ⟨p, hp, hplans.type_eq,
    hclean.initialized_of_plans hid hsilent hclass hplans hhand snippets⟩

/-- A class with an argument of each form, and defaults of all kinds. -/
def lamps : Json :=
  .object [("name", .text "lamps"), ("types", .array [
    .object [("kind", .text "enumeration"), ("name", .text "lamp_color"), ("literals", .array [
      .object [("name", .text "warm"), ("value", .text "w")]])],
    .object [("kind", .text "constrainedPrimitive"), ("name", .text "lumen"),
      ("constrainee", .text "int")],
    .object [("kind", .text "concreteClass"), ("name", .text "lamp"),
      ("properties", .array [
        .object [("name", .text "color"), ("type", .text "lamp_color")],
        .object [("name", .text "power"), ("type", .text "lumen")],
        .object [("name", .text "label"), ("type", .text "Optional[str]")],
        .object [("name", .text "switch"), ("type", .text "bool")],
        .object [("name", .text "rooms"), ("type", .text "Optional[List[str]]")]]),
      ("constructorArguments", .array [
        .object [("name", .text "switch"), ("type", .text "bool")],
        .object [("name", .text "power"), ("type", .text "Optional[lumen]"),
          ("default", .number (.finite false 5629499534213120 (-50)))],
        .object [("name", .text "color"), ("type", .text "Optional[lamp_color]"),
          ("default", .text "warm")],
        .object [("name", .text "label"), ("type", .text "Optional[str]"),
          ("default", .text "it's new")],
        .object [("name", .text "rooms"), ("type", .text "Optional[List[str]]")]])]])]

theorem lamps_initialize : ∃ table, Model.load "modelType" lamps = .ok table
    ∧ table.constructorDiagnostics = [] ∧ ∃ plan, Plan.of table = .ok plan
      ∧ ∀ c ∈ table.concreteClasses, c.isHandwritten = false →
        ∃ p ∈ plan.concreteClasses, p.type = c
          ∧ c.Initialized table ((Declaration.classOf table p).emit []).1 := by
  have hloads : (Model.load "modelType" lamps).toOption.isSome = true := by decide +kernel
  have hfits : (Model.load "modelType" lamps).toOption.map Table.constructorDiagnostics
      = some [] := by decide +kernel
  obtain ⟨table, hload⟩ := Model.exists_table hloads
  rw [hload] at hfits
  have hsilent : table.constructorDiagnostics = [] := Option.some.inj hfits
  exact ⟨table, hload, hsilent, Model.constructors_initialize hload hsilent []⟩

end WireModel
