import AppliedCs.Columnar.Vector

namespace Columnar

open List

-- How the values of a data type are kept in a buffer. A NULL takes a slot with a default in it.
structure Kind (dataType : DataType) (α : Type) where
  default : α
  wrap : List α → VectorData
  read : α → Value
  cell : Value → Option (Option α)
  new : VectorData.new dataType = wrap [] := by rfl
  push : ∀ slots value, (wrap slots).push value =
    match cell value with
    | some c => .ok (wrap (slots ++ [c.getD default]))
    | none => .error (.type "Type mismatch") := by rintro _ (_ | _) <;> rfl
  get : ∀ slots i, (wrap slots).get dataType i = (index slots i).map read := by
    exact fun _ _ => rfl
  slice : ∀ slots offset len,
    (wrap slots).slice offset len = (range slots offset len).map wrap := by exact fun _ _ _ => rfl
  isNull : ∀ value c, cell value = some c → value.isNull = c.isNone := by
    rintro (_ | _) c h <;> cases h <;> rfl
  null : cell .null = some none := by rfl
  cell_read : ∀ a, cell (read a) = some (some a) := by exact fun _ => rfl

namespace Kind

def boolean : Kind .boolean Bool where
  default := false
  wrap := .boolean
  read := .boolean
  cell := fun
    | .boolean b => some (some b)
    | .null => some none
    | _ => none

def int32Cell : Value → Option (Option Int32)
  | .int32 i => some (some i)
  | .date d => some (some d)
  | .null => some none
  | _ => none

def int32 : Kind .int32 Int32 where
  default := 0
  wrap := .int32
  read := .int32
  cell := int32Cell

def date : Kind .date Int32 where
  default := 0
  wrap := .int32
  read := .date
  cell := int32Cell

def int64Cell : Value → Option (Option Int64)
  | .int64 i => some (some i)
  | .timestamp t => some (some t)
  | .null => some none
  | _ => none

def int64 : Kind .int64 Int64 where
  default := 0
  wrap := .int64
  read := .int64
  cell := int64Cell

def timestamp : Kind .timestamp Int64 where
  default := 0
  wrap := .int64
  read := .timestamp
  cell := int64Cell

def float64 : Kind .float64 UInt64 where
  default := 0
  wrap := .float64
  read := .float64
  cell := fun
    | .float64 f => some (some f)
    | .null => some none
    | _ => none

def string : Kind .string String where
  default := ""
  wrap := .string
  read := .string
  cell := fun
    | .string s => some (some s)
    | .null => some none
    | _ => none

variable {α : Type} {dataType : DataType}
variable (k : Kind dataType α)

def value : Option α → Value
  | some a => k.read a
  | none => .null

def vector (cells : List (Option α)) : Vector where
  dataType := dataType
  len := cells.length
  validity := cells.map (·.isSome)
  data := k.wrap (cells.map (·.getD k.default))

theorem cell_value (c : Option α) : k.cell (k.value c) = some c := by
  cases c
  case none => exact k.null
  case some a => exact k.cell_read a

theorem vector_push (v : Value) : (k.vector cells).push v = match k.cell v with
    | some c => .ok (k.vector (cells ++ [c]))
    | none => .error (.type "Type mismatch") := by
  rw [Vector.push, vector, k.push]
  cases hc : k.cell v
  case none => rfl
  case some c =>
    have hn : (!v.isNull) = c.isSome := by rw [k.isNull v c hc, Option.not_isNone]
    simp [Except.map, vector, hn]

theorem foldlM_push (values : List Value) : values.foldlM Vector.push (k.vector cells) =
    match values.mapM k.cell with
    | some cs => .ok (k.vector (cells ++ cs))
    | none => .error (.type "Type mismatch") := by
  induction values generalizing cells
  case nil => simp [pure, Except.pure]
  case cons v values hi =>
    rw [foldlM_cons, vector_push, mapM_cons]
    cases hc : k.cell v
    case none => rfl
    case some c =>
      refine hi.trans ?_
      cases values.mapM k.cell <;> simp

theorem new_eq_vector : Vector.new dataType = k.vector [] := by
  rw [Vector.new, k.new]
  rfl

theorem foldlM_push_value (cells : List (Option α)) :
    (cells.map k.value).foldlM Vector.push (.new dataType) = .ok (k.vector cells) := by
  have hc : (cells.map k.value).mapM k.cell = some cells := by
    induction cells
    case nil => rfl
    case cons c cells hi => rw [map_cons, mapM_cons, k.cell_value, hi]; rfl
  rw [k.new_eq_vector, k.foldlM_push, hc]
  rfl

theorem eq_vector_of_foldlM_push {values : List Value}
    (h : values.foldlM Vector.push (.new dataType) = .ok w) :
    ∃ cs : List (Option α), values.mapM k.cell = some cs ∧ w = k.vector cs := by
  rw [k.new_eq_vector, k.foldlM_push] at h
  cases hc : values.mapM k.cell
  case none =>
    rw [hc] at h
    cases h
  case some cs =>
    rw [hc] at h
    exact ⟨cs, rfl, (Except.ok.inj h).symm⟩

theorem length_of_mapM_some {values : List Value} {cs : List (Option α)}
    (h : values.mapM f = some cs) : cs.length = values.length := by
  induction values generalizing cs
  case nil =>
    cases h
    rfl
  case cons v values hi =>
    rw [mapM_cons] at h
    obtain ⟨c, -, h⟩ := Option.bind_eq_some_iff.mp h
    obtain ⟨rest, hr, h⟩ := Option.bind_eq_some_iff.mp h
    cases h
    rw [length_cons, length_cons, hi hr]

theorem vector_get (h : i < cells.length) : (k.vector cells).get i = .ok (k.value cells[i]) := by
  have hv : (k.vector cells).validity[i]? = some cells[i].isSome := by simp [vector, h]
  have hlen : ¬ i ≥ (k.vector cells).len := Nat.not_le.mpr h
  rw [Vector.get, if_neg hlen, hv]
  cases hc : cells[i]
  case none => rfl
  case some a =>
    have hi : index (cells.map (·.getD k.default)) i = .ok a := by simp [index, h, hc]
    exact (k.get _ _).trans (congrArg (Except.map k.read) hi)

theorem vector_slice (h : offset + len ≤ cells.length) :
    (k.vector cells).slice offset len = .ok (k.vector ((cells.drop offset).take len)) := by
  have hlen : ¬ offset + len > (k.vector cells).len := Nat.not_lt.mpr h
  have hval : range (k.vector cells).validity offset len =
      .ok (((cells.drop offset).take len).map (·.isSome)) := by
    rw [range, if_pos (by simpa [vector] using h), vector, map_take, map_drop]
  have hdata : (k.vector cells).data.slice offset len =
      .ok (k.wrap (((cells.drop offset).take len).map (·.getD k.default))) := by
    rw [vector, k.slice, range, if_pos (by simpa using h), map_take, map_drop]
    rfl
  have hl : ((cells.drop offset).take len).length = len := by
    rw [length_take, length_drop]
    omega
  rw [Vector.slice, if_neg hlen, hval, hdata]
  refine congrArg Except.ok ?_
  rw [vector, vector, hl]

theorem vector_slice_error (h : cells.length < offset + len) :
    (k.vector cells).slice offset len = .error (.invalidOperation "Slice out of bounds") :=
  if_pos h

end Kind

-- The vector keeps these values, so that it can be read and cut like their list.
def Vector.Holds (v : Vector) (values : List Value) : Prop :=
  ∃ (α : Type) (dataType : DataType) (k : Kind dataType α) (cells : List (Option α)),
    v = k.vector cells ∧ values = cells.map k.value

namespace Vector.Holds

variable {v : Vector} {len : ℕ}

variable (h : v.Holds values)

include h

theorem len_eq : v.len = values.length := by
  obtain ⟨_, _, k, cells, rfl, rfl⟩ := h
  exact (length_map k.value).symm

theorem get (hi : i < values.length) : v.get i = .ok values[i] := by
  obtain ⟨_, _, k, cells, rfl, rfl⟩ := h
  rw [length_map] at hi
  rw [k.vector_get hi, getElem_map]

theorem slice (hl : offset + len ≤ values.length) :
    ∃ v', v.slice offset len = .ok v' ∧ v'.Holds ((values.drop offset).take len) := by
  obtain ⟨_, _, k, cells, rfl, rfl⟩ := h
  rw [length_map] at hl
  refine ⟨_, k.vector_slice hl, _, _, k, _, rfl, ?_⟩
  rw [map_take, map_drop]

theorem le_of_slice (hs : v.slice offset len = .ok v') : offset + len ≤ values.length := by
  obtain ⟨_, _, k, cells, rfl, rfl⟩ := h
  rw [length_map]
  by_contra hl
  rw [k.vector_slice_error (Nat.not_le.mp hl)] at hs
  cases hs

theorem unique (h' : v.Holds values') : values = values' := by
  have hl := h.len_eq.symm.trans h'.len_eq
  refine ext_getElem hl fun i hi hi' => ?_
  exact Except.ok.inj <| (h.get hi).symm.trans (h'.get hi')

end Vector.Holds

end Columnar
