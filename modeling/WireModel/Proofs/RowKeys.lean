import WireModel.TypeScript.WriteRows

/-!
# Keys that are read off rows

What a generated routine does with the keys of an object can be read off its rows: a parse routine
knows the keys that label its cases, a method writes the keys that it assigns to, and a parse
routine asks for the keys whose absence it reports. All three are string literals behind a fixed
piece of code, so a row shows at most one.

The rows of a class show exactly the keys of its codec: **`caseLabels_emitParse`**,
**`assignedKeys_emitMethod`** and **`checksFor_emitParse_iff`**.
-/

namespace WireModel.TypeScript

/-- The string literal that stands behind `lead` at the beginning of the row. -/
def Row.literalAfter? (lead : String) (r : Row) : Option String :=
  match r.pieces with
  | .code text :: .literal value :: _ => if text = lead then some value else none
  | _ => none

namespace Block

def literalsAfter (lead : String) (rows : Block) : List String :=
  rows.filterMap (Row.literalAfter? lead)

/-- The keys that label the cases. -/
def caseLabels (rows : Block) : List String := rows.literalsAfter "case "

/-- The keys that are assigned to. -/
def assignedKeys (rows : Block) : List String := rows.literalsAfter "result["

def missingMessage (key : String) : String := "Required property \"" ++ key ++ "\" is missing"

/-- Whether a key that is missing is reported. -/
def checksFor (rows : Block) (key : String) : Bool :=
  (rows.literalsAfter "return rt.fail(").contains (missingMessage key)

theorem missingMessage_injective : Function.Injective missingMessage := by
  intro k k' h
  unfold missingMessage at h
  rwa [String.append_left_inj, String.append_right_inj] at h

/-! ## Rows without literals -/

variable (lead : String)

@[simp] theorem literalsAfter_nil : literalsAfter lead [] = [] := rfl

@[simp] theorem literalsAfter_code (level : Nat) (text : String) (rows : Block) :
    literalsAfter lead (.code level text :: rows) = literalsAfter lead rows := rfl

@[simp] theorem literalsAfter_blank (rows : Block) :
    literalsAfter lead (.blank :: rows) = literalsAfter lead rows := rfl

@[simp] theorem literalsAfter_literal (level : Nat) (text value : String) (rest : List Piece)
    (rows : Block) :
    literalsAfter lead (⟨level, .code text :: .literal value :: rest⟩ :: rows)
      = (if text = lead then [value] else []) ++ literalsAfter lead rows := by
  unfold literalsAfter
  rw [List.filterMap_cons]
  by_cases h : text = lead
  · simp [Row.literalAfter?, h]
  · simp [Row.literalAfter?, h]

@[simp] theorem literalsAfter_append (rows rest : Block) :
    literalsAfter lead (rows ++ rest) = literalsAfter lead rows ++ literalsAfter lead rest :=
  List.filterMap_append

theorem literalsAfter_flatMap {α : Type} (items : List α) (f : α → Block) :
    literalsAfter lead (items.flatMap f) = items.flatMap fun a => literalsAfter lead (f a) :=
  List.filterMap_flatMap

@[simp] theorem literalsAfter_spaced (rows : Block) :
    literalsAfter lead (spaced rows) = literalsAfter lead rows := by
  unfold spaced
  split
  · next h => rw [List.isEmpty_iff.mp h]
  · rfl

@[simp] theorem literalsAfter_signatureRows (stem type : String) :
    literalsAfter lead (signatureRows stem type) = [] := rfl

@[simp] theorem literalsAfter_objectGuardRows : literalsAfter lead objectGuardRows = [] := rfl

@[simp] theorem literalsAfter_declarationRows (slots : List Slot) :
    literalsAfter lead (slots.map Slot.declarationRow) = [] := by
  induction slots with
  | nil => rfl
  | cons s slots ih => exact ih

@[simp] theorem literalsAfter_argumentRows (slots : List Slot) :
    literalsAfter lead (Slot.argumentRows slots) = [] := by
  fun_induction Slot.argumentRows slots with
  | case1 => rfl
  | case2 s => rfl
  | case3 s rest _ ih => exact ih

@[simp] theorem literalsAfter_constructRows (c : ClassCodec) :
    literalsAfter lead c.constructRows = [] := by
  unfold ClassCodec.constructRows
  split
  · rfl
  · simp

/-! ## Rows of a slot and of an entry -/

@[simp] theorem literalsAfter_caseRows (s : Slot) :
    literalsAfter lead s.caseRows = if "case " = lead then [s.key] else [] := by
  have hbody : literalsAfter lead (if s.isList then s.listRows else s.itemRows) = [] := by
    split <;> rfl
  simp [Slot.caseRows, hbody]

@[simp] theorem literalsAfter_requiredRows (s : Slot) :
    literalsAfter lead s.requiredRows
      = if s.isRequired ∧ "return rt.fail(" = lead then [missingMessage s.key] else [] := by
  unfold Slot.requiredRows
  cases s.isRequired with
  | false => simp only [Bool.false_eq_true, false_and, if_false, literalsAfter_nil]
  | true =>
    simp only [if_true, literalsAfter_code, literalsAfter_literal, literalsAfter_nil,
      List.append_nil, true_and]
    rfl

@[simp] theorem literalsAfter_entryRows (e : Entry) :
    literalsAfter lead e.rows = if "result[" = lead then [e.key] else [] := by
  unfold Entry.rows Entry.assignRow
  split <;> simp

@[simp] theorem literalsAfter_discriminatorRows (c : ClassCodec) :
    literalsAfter lead c.discriminatorRows
      = if "case " = lead then (c.discriminator.map (·.1)).toList else [] := by
  unfold ClassCodec.discriminatorRows
  cases c.discriminator <;> simp

@[simp] theorem literalsAfter_writeDiscriminatorRows (c : ClassCodec) :
    literalsAfter lead c.writeDiscriminatorRows
      = if "result[" = lead then (c.discriminator.map (·.1)).toList else [] := by
  unfold ClassCodec.writeDiscriminatorRows
  cases c.discriminator <;> simp

/-! ## Rows of a class -/

theorem literalsAfter_bodyRows (c : ClassCodec) :
    literalsAfter lead c.bodyRows
      = (c.slots.flatMap fun s => if "case " = lead then [s.key] else [])
        ++ (if "case " = lead then (c.discriminator.map (·.1)).toList else [])
        ++ c.slots.flatMap fun s =>
          if s.isRequired ∧ "return rt.fail(" = lead then [missingMessage s.key] else [] := by
  simp [ClassCodec.bodyRows, literalsAfter_flatMap]

theorem flatMap_isRequired (slots : List Slot) (f : Slot → String) :
    (slots.flatMap fun s => if s.isRequired then [f s] else [])
      = (slots.filter (·.isRequired)).map f := by
  induction slots with
  | nil => rfl
  | cons s slots ih =>
    rw [List.flatMap_cons, ih]
    cases hs : s.isRequired <;> simp [hs]

variable {c : ClassCodec} (h : c.isHandwritten = false) (snippets : Snippets)

include h

theorem literalsAfter_emitParse :
    literalsAfter lead (c.emitParse snippets).1 = literalsAfter lead c.bodyRows := by
  unfold ClassCodec.emitParse
  rw [if_neg (by simp [h])]
  simp

theorem caseLabels_emitParse : (c.emitParse snippets).1.caseLabels = c.parsedKeys := by
  unfold caseLabels ClassCodec.parsedKeys
  rw [literalsAfter_emitParse _ h, literalsAfter_bodyRows, List.map_eq_flatMap]
  simp

theorem checksFor_emitParse_iff {key : String} :
    (c.emitParse snippets).1.checksFor key = true ↔ key ∈ c.requiredKeys := by
  have hmessages : literalsAfter "return rt.fail(" (c.emitParse snippets).1
      = c.requiredKeys.map missingMessage := by
    unfold ClassCodec.requiredKeys
    rw [literalsAfter_emitParse _ h, literalsAfter_bodyRows, List.map_map, ← flatMap_isRequired]
    simp
  unfold checksFor
  rw [List.contains_iff_mem, hmessages, List.mem_map]
  simp [missingMessage_injective.eq_iff]

theorem assignedKeys_emitMethod : (c.emitMethod snippets).1.assignedKeys = c.writtenKeys := by
  unfold ClassCodec.emitMethod assignedKeys ClassCodec.writtenKeys
  rw [if_neg (by simp [h]), List.map_eq_flatMap]
  simp [literalsAfter_flatMap]

end Block
end WireModel.TypeScript
