import WireModel.Proofs.TypeNames
import WireModel.TypeScript.Codec

/-!
# Names of the codec module

What the codec module declares is named by a stem and an ending. The endings tell each other apart
wherever they stand (`Ending.name_inj`), so two declarations have the same name only if they have
the same ending and the same stem.

Loading compares capital forms, but stems are made otherwise: the lower camel form of a type, its
upper form for a table, and an `i` before the capital form for an interface. The stem of an
interface is never that of a type, because their capital names would meet
(`Name.capital_of_camel_eq`). Two types can have one stem: `URL` and `Url` have different capital
forms and the same lower camel form. **`Model.routineNames_nodup_iff`** says that nothing else can
go wrong.
-/

namespace WireModel

open TypeScript Codec

namespace TypeScript

/-! ## Endings -/

inductive Ending where
  | parse
  | facade
  | write
  | transform
  | fromTable
  | toTable
  deriving DecidableEq, Repr

namespace Ending

def text : Ending → String
  | .parse => "FromJsonableImplementation"
  | .facade => "FromJsonable"
  | .write => "ToJsonable"
  | .transform => "toJsonable"
  | .fromTable => "_FROM_JSONABLE"
  | .toTable => "_TO_JSONABLE"

/-- The last characters of an ending, as many as the shortest one has. -/
def key (e : Ending) : List Char := e.text.toList.reverse.take 10

theorem key_injective {e e' : Ending} (h : e.key = e'.key) : e = e' := by
  revert h
  cases e <;> cases e' <;> decide

theorem key_eq (stem : String) (e : Ending) :
    (stem ++ e.text).toList.reverse.take 10 = e.key := by
  have hlength : 10 ≤ e.text.toList.reverse.length := by cases e <;> decide
  rw [String.toList_append, List.reverse_append, List.take_append_of_le_length hlength, key]

theorem name_inj {stem stem' : String} {e e' : Ending}
    (h : stem ++ e.text = stem' ++ e'.text) : stem = stem' ∧ e = e' := by
  have hkey : e = e' := by
    apply key_injective
    rw [← key_eq stem, ← key_eq stem', h]
  subst hkey
  exact ⟨(String.append_left_inj _).mp h, rfl⟩

end Ending

/-- A name that is declared at the top of the module. -/
structure TopName where
  stem : String
  ending : Ending
  deriving DecidableEq, Repr

def TopName.text (n : TopName) : String := n.stem ++ n.ending.text

@[simp] theorem TopName.text_parse (stem : String) :
    (TopName.mk stem .parse).text = parseRoutine stem := rfl

@[simp] theorem TopName.text_facade (stem : String) :
    (TopName.mk stem .facade).text = facadeRoutine stem := rfl

def TopName.toJsonable : TopName := ⟨"", .transform⟩

theorem TopName.text_injective : Function.Injective TopName.text := by
  intro n m h
  obtain ⟨hstem, hending⟩ := Ending.name_inj h
  cases n
  cases m
  congr

/-- The names that are declared for a type. -/
def TypeCodec.names : TypeCodec → List String
  | .enumeration e =>
    [parseRoutine e.stem, facadeRoutine e.stem, writeRoutine e.stem, e.fromTable, e.toTable]
  | .interface i => [parseRoutine i.stem, facadeRoutine i.stem]
  | .classType c => [parseRoutine c.stem, facadeRoutine c.stem]

/-- The names that are declared in the module, with the one that does not depend on the model. -/
def CodecModule.names (m : CodecModule) : List String :=
  m.codecs.flatMap TypeCodec.names ++ ["toJsonable"]

end TypeScript

/-! ## Names of a type -/

/-- The stems of the routines that parse a type. -/
def NamedType.stems (t : Table) : NamedType → List String
  | .enumeration e => [Name.camel e.name]
  | .constrained _ => []
  | .classType c =>
    (if (t.interface? c.name).isSome then [interfaceStem c.name] else [])
      ++ (if c.isConcrete then [Name.camel c.name] else [])

def NamedType.topNames (t : Table) (s : NamedType) : List TopName :=
  (s.stems t).flatMap (fun stem => [⟨stem, .parse⟩, ⟨stem, .facade⟩])
    ++ (s.enumeration?.toList.flatMap fun e =>
      [⟨Name.camel e.name, .write⟩, ⟨Text.upper e.name, .fromTable⟩, ⟨Text.upper e.name, .toTable⟩])

theorem names_ofType_codec {t : Table} {s : NamedType} {p : TypePlan} (key : String)
    (h : p.Plans t s) :
    (TypeCodec.ofType key p).flatMap TypeCodec.names = (s.topNames t).map TopName.text := by
  cases h with
  | enumeration e => rfl
  | constrained c => rfl
  | @classType c p h =>
    have hclass : TypeCodec.names (.classType (.of key p))
        = [parseRoutine (Name.camel c.name), facadeRoutine (Name.camel c.name)] := by
      simp only [TypeCodec.names, ClassCodec.of, h.stem_eq, Stem.spell]
    simp only [TypeCodec.ofType, NamedType.topNames, NamedType.stems, NamedType.enumeration?,
      h.type_eq, h.interface_eq]
    cases hi : t.interface? c.name with
    | none => cases c.isConcrete <;> simp [hclass]
    | some i =>
      have hinterface : TypeCodec.names (.interface (.of key (.spell i)))
          = [parseRoutine (interfaceStem c.name), facadeRoutine (interfaceStem c.name)] := by
        simp only [TypeCodec.names, InterfaceCodec.of, InterfacePlan.spell,
          Table.name_of_interface? hi]
      cases c.isConcrete <;> simp [hclass, hinterface]

theorem names_codecModule {t : Table} {plan : Plan} (h : plan.Plans t) (o : Options) :
    (CodecModule.of plan o).names
      = (t.types.flatMap (NamedType.topNames t) ++ [TopName.toJsonable]).map TopName.text := by
  show (plan.types.flatMap _).flatMap TypeCodec.names ++ ["toJsonable"] = _
  rw [List.flatMap_assoc, List.map_append, List.map_flatMap]
  congr 1
  exact flatMap_eq_of_forall₂ h.types fun _ _ => names_ofType_codec o.discriminatorKey

theorem mem_topNames {t : Table} {s : NamedType} {n : TopName} :
    n ∈ s.topNames t ↔
      match n.ending with
      | .parse | .facade => n.stem ∈ s.stems t
      | .write => ∃ e, s = .enumeration e ∧ n.stem = Name.camel e.name
      | .fromTable | .toTable => ∃ e, s = .enumeration e ∧ n.stem = Text.upper e.name
      | .transform => False := by
  obtain ⟨stem, ending⟩ := n
  cases s with
  | enumeration e =>
    cases ending <;> simp [NamedType.topNames, NamedType.stems, NamedType.enumeration?, eq_comm]
  | constrained c =>
    cases ending <;> simp [NamedType.topNames, NamedType.stems, NamedType.enumeration?]
  | classType c => cases ending <;> simp [NamedType.topNames, NamedType.enumeration?]

/-- Two types with routines have different lower camel forms, and two enumerations have different
upper forms. -/
structure Table.StemsApart (t : Table) : Prop where
  camels : ∀ s ∈ t.types, ∀ r ∈ t.types, s.isEmitted = true → r.isEmitted = true →
    Name.camel s.name = Name.camel r.name → s = r
  uppers : ∀ e f, .enumeration e ∈ t.types → .enumeration f ∈ t.types →
    Text.upper e.name = Text.upper f.name → e = f

namespace Table.Sound

variable {key : String} {t : Table} (h : t.Sound key)

include h

theorem mem_stems {s : NamedType} (hs : s ∈ t.types) {stem : String} :
    stem ∈ s.stems t ↔
      (s.isEmitted = true ∧ stem = Name.camel s.name)
        ∨ ∃ c, s = .classType c ∧ c.descendants ≠ [] ∧ stem = "i" ++ Name.capital c.name := by
  cases s with
  | enumeration e => simp [NamedType.stems, NamedType.isEmitted, NamedType.name]
  | constrained c => simp [NamedType.stems, NamedType.isEmitted]
  | classType c =>
    have hinterface := (h.classes c (mem_classes.mpr hs)).interface_iff
    simp only [NamedType.stems, NamedType.isEmitted, NamedType.name, interfaceStem, hinterface]
    cases c.isConcrete <;> by_cases hd : c.descendants = [] <;> simp [hd, or_comm]

/-- The stem of an interface is not that of a type. -/
theorem camel_ne_of_descendants {s : NamedType} {c : Class} (hs : s ∈ t.types)
    (hc : .classType c ∈ t.types) (hd : c.descendants ≠ []) :
    Name.camel s.name ≠ "i" ++ Name.capital c.name := by
  intro heq
  exact h.capital_ne_of_descendants hs hc hd
    (Name.capital_of_camel_eq (h.identified s hs) (h.identified (.classType c) hc) heq)

theorem eq_of_mem_stems (hapart : t.StemsApart) {s r : NamedType} (hs : s ∈ t.types)
    (hr : r ∈ t.types) {stem : String} (hstem : stem ∈ s.stems t) (hstem' : stem ∈ r.stems t) :
    s = r := by
  rcases (h.mem_stems hs).mp hstem with ⟨hemitted, heq⟩ | ⟨c, rfl, hc, heq⟩ <;>
    rcases (h.mem_stems hr).mp hstem' with ⟨hemitted', heq'⟩ | ⟨d, rfl, hd, heq'⟩ <;>
    have hboth := heq.symm.trans heq'
  · exact hapart.camels s hs r hr hemitted hemitted' hboth
  · exact absurd hboth (h.camel_ne_of_descendants hs hr hd)
  · exact absurd hboth.symm (h.camel_ne_of_descendants hr hs hc)
  · exact List.inj_on_of_nodup_map h.capitals_distinct hs hr
      ((String.append_right_inj _).mp hboth)

theorem stems_nodup {s : NamedType} (hs : s ∈ t.types) : (s.stems t).Nodup := by
  cases s with
  | enumeration e => exact List.nodup_singleton _
  | constrained c => exact List.nodup_nil
  | classType c =>
    have hsound := h.classes c (mem_classes.mpr hs)
    simp only [NamedType.stems]
    split
    · next hinterface =>
      have hne := h.camel_ne_of_descendants hs hs (hsound.interface_iff.mp hinterface)
      split
      · refine List.nodup_cons.mpr ⟨fun hmem => ?_, List.nodup_singleton _⟩
        exact hne (List.mem_singleton.mp hmem).symm
      · exact List.nodup_singleton _
    · split
      · exact List.nodup_singleton _
      · exact List.nodup_nil

theorem topNames_nodup {s : NamedType} (hs : s ∈ t.types) : (s.topNames t).Nodup := by
  refine List.nodup_append.mpr ⟨?_, ?_, ?_⟩
  -- one stem gives two names, and other stems give other names
  · refine List.nodup_flatMap.mpr ⟨fun stem _ => by simp, (h.stems_nodup hs).imp ?_⟩
    intro stem stem' hne
    simp [Function.onFun, hne.symm]
  · cases s <;> simp [NamedType.enumeration?]
  · cases s <;> simp [NamedType.stems, NamedType.enumeration?]

/-- Names are different iff stems are, for the endings are. -/
theorem topNames_nodup_iff :
    (t.types.flatMap (NamedType.topNames t)).Nodup ↔ t.StemsApart := by
  rw [nodup_flatMap_iff h.types_nodup, and_iff_right fun s hs => h.topNames_nodup hs]
  constructor
  · intro hone
    constructor
    case camels =>
      intro s hs r hr hemitted hemitted' heq
      refine hone s hs r hr ⟨Name.camel s.name, .parse⟩ (mem_topNames.mpr ?_) (mem_topNames.mpr ?_)
      · exact (h.mem_stems hs).mpr (.inl ⟨hemitted, rfl⟩)
      · exact (h.mem_stems hr).mpr (.inl ⟨hemitted', heq⟩)
    case uppers =>
      intro e f he hf heq
      have hboth := hone _ he _ hf ⟨Text.upper e.name, .fromTable⟩ (mem_topNames.mpr ⟨e, rfl, rfl⟩)
        (mem_topNames.mpr ⟨f, rfl, heq⟩)
      exact NamedType.enumeration.inj hboth
  · intro hapart s hs r hr n hn hn'
    -- the ending says which form of the two types is the same
    rw [mem_topNames] at hn hn'
    obtain ⟨stem, ending⟩ := n
    cases ending with
    | parse => exact h.eq_of_mem_stems hapart hs hr hn hn'
    | facade => exact h.eq_of_mem_stems hapart hs hr hn hn'
    | write =>
      obtain ⟨e, rfl, heq⟩ := hn
      obtain ⟨f, rfl, heq'⟩ := hn'
      exact hapart.camels _ hs _ hr rfl rfl (heq.symm.trans heq')
    | transform => exact hn.elim
    | fromTable =>
      obtain ⟨e, rfl, heq⟩ := hn
      obtain ⟨f, rfl, heq'⟩ := hn'
      rw [hapart.uppers e f hs hr (heq.symm.trans heq')]
    | toTable =>
      obtain ⟨e, rfl, heq⟩ := hn
      obtain ⟨f, rfl, heq'⟩ := hn'
      rw [hapart.uppers e f hs hr (heq.symm.trans heq')]

end Table.Sound

/-- **The declarations of a codec module have different names iff stems tell types apart.** -/
theorem Model.routineNames_nodup_iff {key : String} {value : Json} {table : Table}
    (h : Model.load key value = .ok table) (o : Options) :
    ∃ plan, Plan.of table = .ok plan
      ∧ ((CodecModule.of plan o).names.Nodup ↔ table.StemsApart) := by
  have hsound := Model.sound_of_load h
  obtain ⟨plan, hplan⟩ := hsound.exists_plan
  refine ⟨plan, hplan, ?_⟩
  have hroot : TopName.toJsonable ∉ table.types.flatMap (NamedType.topNames table) := by
    intro hmem
    obtain ⟨s, -, hs⟩ := List.mem_flatMap.mp hmem
    exact mem_topNames.mp hs
  rw [names_codecModule (Plan.plans_of_eq_ok hplan), List.nodup_map_iff TopName.text_injective,
    ← List.concat_eq_append, List.nodup_concat, and_iff_right hroot]
  exact hsound.topNames_nodup_iff

/-- Two enumerations whose names differ in case only. -/
def addresses : Json :=
  .object [("name", .text "addresses"), ("types", .array [
    .object [("kind", .text "enumeration"), ("name", .text "URL"), ("literals", .array [
      .object [("name", .text "home"), ("value", .text "h")]])],
    .object [("kind", .text "enumeration"), ("name", .text "Url"), ("literals", .array [
      .object [("name", .text "home"), ("value", .text "h")]])]])]

theorem addresses_apart_iff : ∃ table, Model.load "modelType" addresses = .ok table
    ∧ ∃ plan, Plan.of table = .ok plan
      ∧ ((CodecModule.of plan {}).names.Nodup ↔ table.StemsApart) := by
  have hloads : (Model.load "modelType" addresses).toOption.isSome = true := by decide +kernel
  obtain ⟨table, hload⟩ := Model.exists_table hloads
  exact ⟨table, hload, Model.routineNames_nodup_iff hload {}⟩

theorem addresses_clash : ∃ table plan, Model.load "modelType" addresses = .ok table
    ∧ Plan.of table = .ok plan ∧ ¬ (CodecModule.of plan {}).names.Nodup := by
  have hnames : (Model.load "modelType" addresses).toOption.bind (fun t =>
      (Plan.of t).toOption.map fun plan => decide (CodecModule.of plan {}).names.Nodup)
        = some false := by decide +kernel
  obtain ⟨table, plan, hload, hplan, hnames⟩ := Model.exists_plan_of_eq_some hnames
  exact ⟨table, plan, hload, hplan, of_decide_eq_false hnames⟩

end WireModel
