import WireModel.Proofs.Inclusion
import WireModel.Proofs.Planning
import WireModel.Proofs.TypeLists
import WireModel.Schema.Definition
import WireModel.TypeScript.ParseRows

/-!
# Models that are extended

Types are added to a model, and none of the new classes inherits from an old one. Then what is on
the wire for the old types stays as it is.

## The architecture

* What a class is made of looks upwards, along parents, and is the same in any larger document
  (`Inclusion`). What looks downwards are descendants, and through them interfaces and the
  discriminator. **`Document.Clean.descendants_of_extension`**: a chain of parents that ends in an
  old class began in one, so nothing descends from it that did not before.
* **`Table.Extends`** collects what the larger table says about the old types. It is all that plans
  and schemas look at, so **`Table.Extends.typePlan_eq`** gives each old type the very plan that it
  had, and with it the same routines.
* **`Model.extension_preserves`** says it of values.
-/

namespace WireModel

open Codec TypeScript

/-! ## Lists that are determined by their members -/

/-- A part of a list without repetitions is what is found in it. -/
theorem eq_filter_of_sublist {α : Type} [DecidableEq α] {part items : List α}
    (hitems : items.Nodup) (h : part.Sublist items) :
    part = items.filter fun a => decide (a ∈ part) := by
  induction h with
  | slnil => rfl
  | cons a h ih =>
    obtain ⟨hnew, hrest⟩ := List.nodup_cons.mp hitems
    rw [List.filter_cons_of_neg (by simpa using fun ha => hnew (h.subset ha))]
    exact ih hrest
  | @cons_cons part items a h ih =>
    obtain ⟨hnew, hrest⟩ := List.nodup_cons.mp hitems
    rw [List.filter_cons_of_pos (by simp)]
    refine congrArg (a :: ·) ((ih hrest).trans (List.filter_congr fun b hb => ?_))
    have hne : b ≠ a := fun heq => hnew (heq ▸ hb)
    simp [hne]

theorem eq_of_sublist_of_mem_iff {α : Type} [DecidableEq α] {part part' items : List α}
    (hitems : items.Nodup) (h : part.Sublist items) (h' : part'.Sublist items)
    (hmem : ∀ a, a ∈ part ↔ a ∈ part') : part = part' := by
  rw [eq_filter_of_sublist hitems h, eq_filter_of_sublist hitems h']
  simp only [hmem]

/-! ## Nothing new descends from an old class -/

namespace Document.Clean

variable {key : String} {document larger : Document}

/-- Only classes have interfaces. -/
theorem interface?_eq_none (h : document.Clean key) {d : TypeDecl} (hd : d ∈ document.types)
    (hclass : d.class? = none) : document.table.interface? d.name = none := by
  cases hfind : document.table.interface? d.name with
  | none => rfl
  | some i =>
    obtain ⟨hi, hname⟩ := h.interface?_table_iff.mp hfind
    rw [h.interfaces_table] at hi
    obtain ⟨c, hc, -, rfl⟩ := Outline.mem_interfaces.mp hi
    obtain rfl : d = .classType c :=
      List.inj_on_of_nodup_map h.names_nodup hd (Outline.mem_classesOf.mp hc) hname.symm
    cases hclass

/-- What carries the discriminator is concrete, and has a parent or a descendant. -/
theorem isDiscriminated_iff (h : document.Clean key) {c : ClassDecl}
    (hc : c ∈ Outline.classesOf document.types) :
    document.table.isDiscriminated c.name = true ↔ c.kind.isConcrete = true
      ∧ ((Outline.ofTypes document.types).parentsOf c.name ≠ []
        ∨ (Outline.ofTypes document.types).descendantsOf c.name ≠ []) := by
  rw [← Outline.implements_iff h.names_nodup hc, Table.isDiscriminated, h.interfaces_table,
    List.any_eq_true]
  simp only [List.contains_iff_mem]

section Extended

variable (hclosed : ∀ child parent, larger.Inherits child parent →
    parent ∈ (Outline.classesOf document.types).map (·.name) →
    child ∈ (Outline.classesOf document.types).map (·.name))

include hclosed

/-- A chain of parents that ends in an old class began in one. -/
theorem mem_old_of_descends {name base : String}
    (hbase : base ∈ (Outline.classesOf document.types).map (·.name))
    (hchain : Relation.TransGen larger.Inherits name base) :
    name ∈ (Outline.classesOf document.types).map (·.name) := by
  induction hchain using Relation.TransGen.head_induction_on with
  | single hlast => exact hclosed _ _ hlast hbase
  | head hfirst _ ih => exact hclosed _ _ hfirst ih

variable (h : document.Clean key) (h' : larger.Clean key)
  (hsub : document.types.Sublist larger.types)

include h h' hsub

theorem descendants_of_extension {c : ClassDecl} (hc : c ∈ Outline.classesOf document.types) :
    (Outline.ofTypes larger.types).descendantsOf c.name
      = (Outline.ofTypes document.types).descendantsOf c.name := by
  have hclasses : (Outline.classesOf document.types).Sublist (Outline.classesOf larger.types) :=
    hsub.filterMap _
  refine eq_of_sublist_of_mem_iff (Outline.classesOf_names_nodup h'.names_nodup)
    (Outline.descendantsOf_sublist _ c.name)
    ((Outline.descendantsOf_sublist _ c.name).trans (hclasses.map _)) fun name => ?_
  have hmem : ∀ x ∈ Outline.classesOf document.types,
      (x.name ∈ (Outline.ofTypes larger.types).descendantsOf c.name ↔
        x.name ∈ (Outline.ofTypes document.types).descendantsOf c.name) := by
    intro x hx
    rw [Outline.mem_descendantsOf h.names_nodup hx,
      Outline.mem_descendantsOf h'.names_nodup (hclasses.subset hx), h.keeps_eq, h'.keeps_eq,
      h.transGen_iff_of_subset h' hsub.subset hx]
  constructor
  · intro hname
    obtain ⟨x, hx, rfl⟩ := Outline.exists_of_mem_descendantsOf hname
    have hchain := (Outline.mem_descendantsOf h'.names_nodup hx).mp hname
    rw [h'.keeps_eq] at hchain
    obtain ⟨y, hy, hyx⟩ := List.mem_map.mp
      (mem_old_of_descends hclosed (List.mem_map_of_mem hc) hchain)
    rw [← hyx] at hname ⊢
    exact (hmem y hy).mp hname
  · intro hname
    obtain ⟨x, hx, rfl⟩ := Outline.exists_of_mem_descendantsOf hname
    exact (hmem x hx).mpr hname

theorem implementers_of_extension {c : ClassDecl} (hc : c ∈ Outline.classesOf document.types) :
    (Outline.ofTypes larger.types).implementersOf c.name
      = (Outline.ofTypes document.types).implementersOf c.name := by
  have hclasses : (Outline.classesOf document.types).Sublist (Outline.classesOf larger.types) :=
    hsub.filterMap _
  refine eq_of_sublist_of_mem_iff (Outline.classesOf_names_nodup h'.names_nodup)
    (Outline.implementersOf_sublist _ c.name)
    ((Outline.implementersOf_sublist _ c.name).trans (hclasses.map _)) fun name => ?_
  rw [Outline.mem_implementersOf, Outline.mem_implementersOf,
    h.descendants_of_extension hclosed h' hsub hc]
  constructor
  · rintro ⟨x, hx, rfl, hconcrete, hmember⟩
    -- an implementer is the class itself or one of its descendants, and both are old
    have hold : ∃ y ∈ Outline.classesOf document.types, y.name = x.name := by
      rcases hmember with hself | hdescends
      · exact ⟨c, hc, hself.symm⟩
      · exact Outline.exists_of_mem_descendantsOf hdescends
    obtain ⟨y, hy, hyx⟩ := hold
    obtain rfl := Outline.class_eq_of_name_eq h'.names_nodup (hclasses.subset hy) hx hyx
    exact ⟨y, hy, rfl, hconcrete, hmember⟩
  · rintro ⟨x, hx, rfl, hconcrete, hmember⟩
    exact ⟨x, hclasses.subset hx, rfl, hconcrete, hmember⟩

end Extended

end Document.Clean

/-! ## Extended tables -/

/-- `other` says about the types of `t` what `t` says about them. -/
structure Table.Extends (t other : Table) : Prop where
  find? : ∀ name s, t.find? name = some s → other.find? name = some s
  interface? : ∀ s ∈ t.types, other.interface? s.name = t.interface? s.name
  discriminated : ∀ c ∈ t.classes, other.isDiscriminated c.name = t.isDiscriminated c.name

/-- **The table of a larger document extends that of the smaller one**, if nothing new inherits
from an old class. -/
theorem Document.Clean.extends_table {key : String} {document larger : Document}
    (h : document.Clean key) (h' : larger.Clean key)
    (hsub : document.types.Sublist larger.types)
    (hclosed : ∀ child parent, larger.Inherits child parent →
      parent ∈ (Outline.classesOf document.types).map (·.name) →
      child ∈ (Outline.classesOf document.types).map (·.name)) :
    document.table.Extends larger.table where
  find? := by
    intro name s hfind
    obtain ⟨hs, rfl⟩ := h.find?_table_iff.mp hfind
    rw [h.types_table] at hs
    obtain ⟨d, hd, rfl⟩ := List.mem_map.mp hs
    rw [Outline.name_typeOf, h'.find?_typeOf (hsub.subset hd)]
    cases d with
    | enumeration e => rw [h.typeOf_of_subset h' hsub.subset hd rfl]
    | constrained c => rw [h.typeOf_of_subset h' hsub.subset hd rfl]
    | classType c =>
      have hc := Outline.mem_classesOf.mpr hd
      rw [Outline.typeOf, Outline.typeOf, h.classOf_of_subset h' hsub.subset hc,
        h.descendants_of_extension hclosed h' hsub hc]
      rfl
  interface? := by
    rw [h.types_table, List.forall_mem_map]
    intro d hd
    rw [Outline.name_typeOf]
    cases d with
    | enumeration e =>
      rw [h.interface?_eq_none hd rfl, h'.interface?_eq_none (hsub.subset hd) rfl]
    | constrained c =>
      rw [h.interface?_eq_none hd rfl, h'.interface?_eq_none (hsub.subset hd) rfl]
    | classType c =>
      have hc := Outline.mem_classesOf.mpr hd
      rw [TypeDecl.name, h.interface?_table hc,
        h'.interface?_table (Outline.classesOf_subset hsub.subset hc),
        h.descendants_of_extension hclosed h' hsub hc,
        h.implementers_of_extension hclosed h' hsub hc]
  discriminated := by
    refine h.forall_classes fun c hc => ?_
    show larger.table.isDiscriminated c.name = document.table.isDiscriminated c.name
    rw [Bool.eq_iff_iff, h.isDiscriminated_iff hc,
      h'.isDiscriminated_iff (Outline.classesOf_subset hsub.subset hc),
      h.descendants_of_extension hclosed h' hsub hc, h.parentsOf_eq, h'.parentsOf_eq,
      h.parentsOf_of_subset h' hsub.subset (List.mem_map_of_mem hc)]

/-! ## Plans and schemas of old types -/

namespace Table.Extends

variable {key : String} {t other : Table} (hextends : t.Extends other) (h : t.Sound key)

include hextends h

theorem carrier_eq {atom : Atom}
    (hknown : ∀ name, atom = .named name → name ∈ t.types.map (·.name)) :
    other.carrier atom = t.carrier atom := by
  cases atom with
  | primitive kind => rfl
  | named name =>
    obtain ⟨s, hs, hfind⟩ := h.exists_find? (hknown name rfl)
    rw [carrier, carrier, hfind, hextends.find? name s hfind]
    cases s with
    | enumeration e => rfl
    | constrained c => rfl
    | classType c =>
      have hinterface : other.interface? c.name = t.interface? c.name :=
        hextends.interface? (.classType c) hs
      show other.classCarrier c = t.classCarrier c
      rw [classCarrier, classCarrier, hinterface]

theorem strategy_eq {type : FieldType Atom} (hknows : t.Knows type) :
    other.strategy type = t.strategy type := by
  rw [strategy, strategy, hextends.carrier_eq h fun name hname => (hknows name hname).1]

theorem classPlan_eq {c : Class} (hc : c ∈ t.classes) :
    ClassPlan.of other c = ClassPlan.of t c := by
  have hsound := h.classes c hc
  have hmembers : c.properties.mapM (Member.of other) = c.properties.mapM (Member.of t) :=
    mapM_congr_left fun p hp => by
      rw [Member.of, Member.of, hextends.strategy_eq h (hsound.properties_known p hp)]
  have hparameters : c.arguments.mapM (Parameter.of other) = c.arguments.mapM (Parameter.of t) :=
    mapM_congr_left fun a ha => by
      rw [Parameter.of, Parameter.of, hextends.strategy_eq h (hsound.arguments_known a ha)]
  have hname : other.interface? c.name = t.interface? c.name :=
    hextends.interface? (.classType c) (mem_classes.mp hc)
  have hinterface : InterfacePlan.ofClass other c = InterfacePlan.ofClass t c := by
    rw [InterfacePlan.ofClass, InterfacePlan.ofClass, hname]
  rw [ClassPlan.of, ClassPlan.of, hmembers, hparameters, hinterface, hextends.discriminated c hc]

/-- **An old type has the plan that it had.** -/
theorem typePlan_eq {s : NamedType} (hs : s ∈ t.types) : TypePlan.of other s = TypePlan.of t s := by
  cases s with
  | enumeration e => rfl
  | constrained c => rfl
  | classType c => rw [TypePlan.of, TypePlan.of, hextends.classPlan_eq h (mem_classes.mpr hs)]

theorem mem_plan {plan plan' : Plan} (hplan : Plan.of t = .ok plan)
    (hplan' : Plan.of other = .ok plan') {p : TypePlan} (hp : p ∈ plan.types) :
    p ∈ plan'.types := by
  obtain ⟨plans, hplans, rfl⟩ := map_eq_ok_iff.mp hplan
  obtain ⟨plans', hplans', rfl⟩ := map_eq_ok_iff.mp hplan'
  obtain ⟨s, hs, hsp⟩ := exists_of_mem_forall₂ (mapM_eq_ok_iff.mp hplans).flip hp
  have hfind : t.find? s.name = some s :=
    (find?_key_eq_some_iff h.names_nodup).mpr ⟨hs, rfl⟩
  have hs' : s ∈ other.types := List.mem_of_find?_eq_some (hextends.find? s.name s hfind)
  obtain ⟨p', hp', hsp'⟩ := exists_of_mem_forall₂ (mapM_eq_ok_iff.mp hplans') hs'
  rw [hextends.typePlan_eq h hs, hsp] at hsp'
  obtain rfl := Except.ok.inj hsp'
  exact hp'

omit h in
/-- References to old types stay as they are. -/
theorem ofField_eq {type : FieldType Atom} (hknows : t.Knows type) :
    Schema.ofField other type = Schema.ofField t type := by
  have hatom : Schema.ofAtom other type.item = Schema.ofAtom t type.item := by
    cases hitem : type.item with
    | primitive kind => rfl
    | named name =>
      obtain ⟨s, hs, rfl⟩ := List.mem_map.mp (hknows name hitem).1
      rw [Schema.ofAtom, Schema.ofAtom, hextends.interface? s hs]
  rw [Schema.ofField, Schema.ofField, hatom]

theorem ofClass_eq {c : Class} (hc : c ∈ t.classes) {p : ClassPlan} (hp : p.Plans t c)
    (wireKey : String) : Schema.ofClass other wireKey p = Schema.ofClass t wireKey p := by
  have hknown : ∀ m ∈ p.members, t.Knows m.property.type := by
    intro m hm
    obtain ⟨q, hq, hplans⟩ := exists_of_mem_forall₂ hp.members.flip hm
    rw [hplans.property_eq]
    exact (h.classes c hc).properties_known q hq
  have hproperties : Schema.properties other wireKey p = Schema.properties t wireKey p := by
    rw [Schema.properties, Schema.properties, List.map_congr_left fun m hm => by
      rw [hextends.ofField_eq (hknown m hm)]]
  rw [Schema.ofClass, Schema.ofClass, hproperties]

end Table.Extends

/-! ## Values -/

/-- What is on the wire for a class of `t` is the same for the class `p'` of `other`: its schema,
and the rows of its parse routine. -/
structure Codec.ClassPlan.SameWire (t other : Table) (p p' : ClassPlan) : Prop where
  name : p'.name = p.name
  schema : ∀ key, Schema.ofClass other key p' = Schema.ofClass t key p
  routine : ∀ key snippets,
    (ClassCodec.of key p').emitParse snippets = (ClassCodec.of key p).emitParse snippets

theorem Document.exists_extension {members : Json.Members} {items more : List Json}
    {document : Document} {extra : List TypeDecl}
    (hitems : members.get? "types" = some (.array items))
    (hmore : more.mapM TypeDecl.decode? = some extra)
    (hd : decode? (.object members) = some document) :
    decode? (.object (members.set "types" (.array (items ++ more))))
      = some { document with types := document.types ++ extra } := by
  rw [decode?_set_types hitems hd, List.mapM_append, mapM_types_of_decode? hitems hd, hmore]
  rfl

/-- Only the classes among the old types inherit from old classes, if no new class does. -/
theorem Document.inherits_old {document : Document} {extra : List TypeDecl}
    (hapart : ∀ c ∈ Outline.classesOf extra, ∀ p ∈ c.parents,
      p ∉ (Outline.classesOf document.types).map (·.name)) {child parent : String}
    (hinherits : Inherits { document with types := document.types ++ extra } child parent)
    (hparent : parent ∈ (Outline.classesOf document.types).map (·.name)) :
    child ∈ (Outline.classesOf document.types).map (·.name) := by
  rw [Inherits, parentsOf] at hinherits
  split at hinherits
  · next c hfind =>
    have hc := List.mem_of_find?_eq_some hfind
    have hname : c.name = child := by simpa using List.find?_some hfind
    rw [Outline.classesOf, List.filterMap_append, List.mem_append] at hc
    rcases hc with hc | hc
    · exact List.mem_map.mpr ⟨c, hc, hname⟩
    · exact absurd hparent (hapart c hc parent hinherits)
  · cases hinherits

/-- **Extending a model leaves the wire format of its types alone**: if further types are appended
to a model, none of them a class with a parent among its classes, then what the table says about
its types stays, and so do the schemas and the parse routines of its concrete classes. -/
theorem Model.extension_preserves {key : String} {members : Json.Members} {items more : List Json}
    {extra : List TypeDecl} {table table' : Table}
    (hitems : members.get? "types" = some (.array items))
    (hmore : more.mapM TypeDecl.decode? = some extra)
    (hload : Model.load key (.object members) = .ok table)
    (hload' : Model.load key (.object (members.set "types" (.array (items ++ more))))
      = .ok table')
    (hapart : ∀ c ∈ Outline.classesOf extra, ∀ p ∈ c.parents, ¬table.HasClass p) :
    table.Extends table' ∧ ∃ plan plan', Plan.of table = .ok plan ∧ Plan.of table' = .ok plan'
      ∧ ∀ p ∈ plan.concreteClasses,
        ∃ p' ∈ plan'.concreteClasses, ClassPlan.SameWire table table' p p' := by
  have hsound := Model.sound_of_load hload
  have hsound' := Model.sound_of_load hload'
  obtain ⟨document, hd, hclean, -, rfl⟩ := Model.clean_of_load hload
  obtain ⟨larger, hd', hclean', -, rfl⟩ := Model.clean_of_load hload'
  obtain rfl := Option.some.inj ((Document.exists_extension hitems hmore hd).symm.trans hd')
  have hold : ∀ c ∈ Outline.classesOf extra, ∀ p ∈ c.parents,
      p ∉ (Outline.classesOf document.types).map (·.name) :=
    fun c hc p hp hname => hapart c hc p hp (hclean.hasClass_of_mem hname)
  have hextends := hclean.extends_table hclean' (List.sublist_append_left _ _)
    fun _ _ => Document.inherits_old hold
  obtain ⟨plan, hplan⟩ := hsound.exists_plan
  obtain ⟨plan', hplan'⟩ := hsound'.exists_plan
  refine ⟨hextends, plan, plan', hplan, hplan', fun p hp => ?_⟩
  obtain ⟨hp, hconcrete⟩ := List.mem_filter.mp hp
  obtain ⟨c, hc, hplans⟩ := (Plan.plans_of_eq_ok hplan).exists_class hp
  -- the plan of an old class is one of the new plan as it is
  have hp' := hextends.mem_plan hsound hplan hplan' (Plan.mem_classes.mp hp)
  exact ⟨p, List.mem_filter.mpr ⟨Plan.mem_classes.mpr hp', hconcrete⟩,
    ⟨rfl, hextends.ofClass_eq hsound hc hplans, fun _ _ => rfl⟩⟩

/-- Types for a catalog of shelves: a hierarchy of its own, whose fields and descriptions refer to
what is on the shelves. -/
def catalog : List Json :=
  [.object [("kind", .text "concreteClass"), ("name", .text "catalog"),
      ("description", .text "Lists each :class:`book` by its :attr:`item.label`."),
      ("inheritances", Json.texts ["ledger"]),
      ("properties", .array [
        .object [("name", .text "entries"), ("type", .text "List[item]")],
        .object [("name", .text "latest"), ("type", .text "Optional[book]")]])],
    .object [("kind", .text "abstractClass"), ("name", .text "ledger"),
      ("properties", .array [.object [("name", .text "state"), ("type", .text "state")]])]]

theorem shelves_extended : ∃ (members : Json.Members) (items : List Json),
    shelves = .object members ∧ members.get? "types" = some (.array items)
    ∧ ∃ extra, catalog.mapM TypeDecl.decode? = some extra
    ∧ ∃ table table', Model.load "modelType" shelves = .ok table
      ∧ Model.load "modelType" (.object (members.set "types" (.array (items ++ catalog))))
        = .ok table'
      ∧ (∀ c ∈ Outline.classesOf extra, ∀ p ∈ c.parents, ¬table.HasClass p)
      ∧ table.Extends table' ∧ ∃ plan plan', Plan.of table = .ok plan ∧ Plan.of table' = .ok plan'
        ∧ ∀ p ∈ plan.concreteClasses,
          ∃ p' ∈ plan'.concreteClasses, ClassPlan.SameWire table table' p p' := by
  have hledger : (Model.load "modelType" shelves).toOption.map
      (fun t => (t.find? "ledger").isNone) = some true := by decide +kernel
  cases hload : Model.load "modelType" shelves with
  | error reported => rw [hload] at hledger; cases hledger
  | ok table =>
    rw [hload] at hledger
    have hset : ∀ {members : Json.Members} {items : List Json}, shelves = .object members →
        members.get? "types" = some (.array items) →
        ∃ table', Model.load "modelType"
          (.object (members.set "types" (.array (items ++ catalog)))) = .ok table' := by
      intro members items hmembers hitems
      obtain rfl := Json.object.inj hmembers
      obtain rfl := Json.array.inj (Option.some.inj hitems)
      exact Model.exists_table (by decide +kernel)
    obtain ⟨table', hload'⟩ := hset rfl rfl
    obtain ⟨extra, hmore, hparents⟩ : ∃ extra, catalog.mapM TypeDecl.decode? = some extra
        ∧ ∀ c ∈ Outline.classesOf extra, ∀ p ∈ c.parents, p = "ledger" := ⟨_, rfl, by decide⟩
    have hapart : ∀ c ∈ Outline.classesOf extra, ∀ p ∈ c.parents, ¬table.HasClass p := by
      rintro c hc p hp ⟨d, hd⟩
      rw [hparents c hc p hp] at hd
      rw [Except.toOption, Option.map_some, hd] at hledger
      cases hledger
    exact ⟨_, _, rfl, rfl, extra, hmore, table, table', rfl, hload', hapart,
      Model.extension_preserves rfl hmore hload hload' hapart⟩

end WireModel
