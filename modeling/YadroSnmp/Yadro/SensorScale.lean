import Mathlib.Data.List.Induction
import Mathlib.Data.List.Infix
import YadroSnmp.Lib.Rounding
import YadroSnmp.Yadro.Sensors

/-! # Conversion of sensor values

A row converts its five measures on every GET, and its value before and after
every map it is given. What a map delivers is converted as it came, so the
conversions are defined exactly as long as what is delivered is in range.
-/

namespace YadroSnmp.Sensors

open Snmp Table Rounding

/-- A column that is converted, with the property its field is set from. -/
structure Measure where
  column : Nat
  property : Str
  get : Sensor → ℚ

def measures : List Measure :=
  [⟨2, Str.lit "Value", Sensor.value⟩, ⟨3, Str.lit "WarningLow", Sensor.warnLow⟩,
    ⟨4, Str.lit "WarningHigh", Sensor.warnHi⟩, ⟨5, Str.lit "CriticalLow", Sensor.critLow⟩,
    ⟨6, Str.lit "CriticalHigh", Sensor.critHi⟩]

def rowAfter (folder name : Str) (readObjid : ReadObjid) (maps : List FieldsMap) : Sensor :=
  ((itemClass readObjid).life folder name maps).1

/-- The calls of `getValue` in a run, each with the field it reads and its result:
those of `setFields` around the assignments, and those of a GET at any moment. -/
inductive Conversion (row : List FieldsMap → Sensor) (maps : List FieldsMap) : ℚ → Answer → Prop
  | prevValue (seen : List FieldsMap) (map : FieldsMap) : seen ++ [map] <+: maps →
      Conversion row maps (row seen).value (getValue (row seen) (row seen).value)
  | newValue (seen : List FieldsMap) (map : FieldsMap) : seen ++ [map] <+: maps →
      Conversion row maps (assignFields (row seen) map).value
        (getValue (assignFields (row seen) map) (assignFields (row seen) map).value)
  | reply (seen : List FieldsMap) (m : Measure) : seen <+: maps → m ∈ measures →
      Conversion row maps (m.get (row seen)) (getSnmpReply (row seen) m.column)

/-- Every conversion is of a product whose rounding is an `int`, gives that
rounding, and they keep the order of the values. -/
structure ScaledFaithfully (factor : ℚ) (row : List FieldsMap → Sensor) (maps : List FieldsMap) :
    Prop where
  rounded : ∀ q answer, Conversion row maps q answer →
    ∃ k, answer = .value (.integer k) ∧ -2 ^ 31 ≤ k ∧ k ≤ 2 ^ 31 - 1 ∧ NearestAway (q * factor) k
  monotone : ∀ q q' k k', Conversion row maps q (.value (.integer k)) →
    Conversion row maps q' (.value (.integer k')) → q ≤ q' → k ≤ k'

def Delivered (maps : List FieldsMap) (q : ℚ) : Prop :=
  ∃ map ∈ maps, ∃ m ∈ measures, map.typed ℚ m.property = some q

/-- What rounds to an `int` after scaling. -/
def Convertible (factor q : ℚ) : Prop := -2 ^ 31 - 1 / 2 < q * factor ∧ q * factor < 2 ^ 31 - 1 / 2

section Rounding

variable {s : Sensor} {q : ℚ} {k : Int}

theorem nearestAway_roundAway (q : ℚ) : NearestAway q (roundAway q) := by
  unfold roundAway
  split
  · rename_i hNonneg
    exact nearestAway_floor hNonneg
  · rename_i hNeg
    exact nearestAway_ceil (le_of_not_ge hNeg)

theorem convertible_iff :
    Convertible (10 ^ s.power) q ↔ -2 ^ 31 ≤ scaled s q ∧ scaled s q ≤ 2 ^ 31 - 1 := by
  have hNearest : NearestAway (q * 10 ^ s.power) (scaled s q) := nearestAway_roundAway _
  rw [hNearest.ge_iff (by norm_num), hNearest.le_iff (by norm_num), Convertible]
  norm_num

theorem getValue_eq_iff :
    getValue s q = .value (.integer k) ↔
      k = scaled s q ∧ -2 ^ 31 ≤ scaled s q ∧ scaled s q ≤ 2 ^ 31 - 1 := by
  unfold getValue
  split
  · rename_i hRange
    constructor
    · rintro ⟨⟩
      exact ⟨rfl, hRange.1, by omega⟩
    · rintro ⟨rfl, -⟩
      rfl
  · rename_i hRange
    constructor
    · rintro ⟨⟩
    · rintro ⟨-, hLow, hHigh⟩
      exact absurd ⟨hLow, by omega⟩ hRange

theorem getValue_rounded_iff :
    (∃ k, getValue s q = .value (.integer k) ∧ -2 ^ 31 ≤ k ∧ k ≤ 2 ^ 31 - 1 ∧
        NearestAway (q * 10 ^ s.power) k) ↔ Convertible (10 ^ s.power) q := by
  rw [convertible_iff]
  constructor
  · rintro ⟨k, hValue, -⟩
    exact (getValue_eq_iff.mp hValue).2
  · intro hRange
    exact ⟨scaled s q, getValue_eq_iff.mpr ⟨rfl, hRange⟩, hRange.1, hRange.2, nearestAway_roundAway _⟩

end Rounding

section Row

variable {readObjid : ReadObjid} {folder name : Str} {maps : List FieldsMap} {m : Measure}

theorem getSnmpReply_measure (hm : m ∈ measures) (s : Sensor) :
    getSnmpReply s m.column = getValue s (m.get s) := by
  simp only [measures, List.mem_cons, List.not_mem_nil, or_false] at hm
  obtain rfl | rfl | rfl | rfl | rfl := hm
  all_goals rfl

theorem get_assignFields (hm : m ∈ measures) (s : Sensor) (map : FieldsMap) :
    m.get (assignFields s map) = (map.typed ℚ m.property).getD (m.get s) := by
  simp only [measures, List.mem_cons, List.not_mem_nil, or_false] at hm
  obtain rfl | rfl | rfl | rfl | rfl := hm
  all_goals exact setField_eq _ _ _

theorem rowAfter_snoc (seen : List FieldsMap) (map : FieldsMap) :
    rowAfter folder name readObjid (seen ++ [map]) =
      assignFields (rowAfter folder name readObjid seen) map :=
  congrArg Prod.fst ((itemClass readObjid).life_snoc folder name seen map)

theorem power_rowAfter (readObjid : ReadObjid) (folder name : Str) (maps : List FieldsMap) :
    (rowAfter folder name readObjid maps).power = power folder := by
  induction maps using List.reverseRecOn with
  | nil => rfl
  | append_singleton maps map ih =>
    rw [rowAfter_snoc]
    exact ih

/-- A measure is zero until it was delivered. -/
theorem get_rowAfter (readObjid : ReadObjid) (folder name : Str) (maps : List FieldsMap)
    (hm : m ∈ measures) :
    m.get (rowAfter folder name readObjid maps) = 0 ∨
      Delivered maps (m.get (rowAfter folder name readObjid maps)) := by
  induction maps using List.reverseRecOn with
  | nil =>
    simp only [measures, List.mem_cons, List.not_mem_nil, or_false] at hm
    obtain rfl | rfl | rfl | rfl | rfl := hm
    all_goals exact .inl rfl
  | append_singleton maps map ih =>
    rw [rowAfter_snoc, get_assignFields hm]
    cases hTyped : map.typed ℚ m.property with
    | some q => exact .inr ⟨map, by simp, m, hm, hTyped⟩
    | none =>
      apply ih.imp_right
      rintro ⟨map', hMap, hDelivered⟩
      exact ⟨map', List.mem_append_left _ hMap, hDelivered⟩

theorem Conversion.cases {q : ℚ} {answer : Answer}
    (h : Conversion (rowAfter folder name readObjid) maps q answer) :
    ∃ seen m, seen <+: maps ∧ m ∈ measures ∧ q = m.get (rowAfter folder name readObjid seen) ∧
      answer = getValue (rowAfter folder name readObjid seen) q := by
  have hValue : ⟨2, Str.lit "Value", Sensor.value⟩ ∈ measures := List.mem_cons_self
  cases h with
  | prevValue seen map hSeen =>
    exact ⟨seen, _, (List.prefix_append seen [map]).trans hSeen, hValue, rfl, rfl⟩
  | newValue seen map hSeen =>
    rw [← rowAfter_snoc]
    exact ⟨seen ++ [map], _, hSeen, hValue, rfl, rfl⟩
  | reply seen m hSeen hm =>
    exact ⟨seen, m, hSeen, hm, rfl, getSnmpReply_measure hm _⟩

/-- What is delivered is converted by the next GET of its column. -/
theorem conversion_of_delivered (readObjid : ReadObjid) (folder name : Str) {q : ℚ} (h : Delivered maps q) :
    ∃ seen, Conversion (rowAfter folder name readObjid) maps q
      (getValue (rowAfter folder name readObjid seen) q) := by
  obtain ⟨map, hMap, m, hm, hTyped⟩ := h
  obtain ⟨before, after, rfl⟩ := List.append_of_mem hMap
  have hSeen : before ++ [map] <+: before ++ map :: after := ⟨after, by simp⟩
  have hGet : m.get (rowAfter folder name readObjid (before ++ [map])) = q := by
    rw [rowAfter_snoc, get_assignFields hm, hTyped, Option.getD_some]
  have hReply : Conversion (rowAfter folder name readObjid) (before ++ map :: after) _ _ :=
    .reply _ m hSeen hm
  rw [getSnmpReply_measure hm, hGet] at hReply
  exact ⟨_, hReply⟩

end Row

theorem convertible_zero (factor : ℚ) : Convertible factor 0 := by
  rw [Convertible, zero_mul]
  norm_num

theorem Delivered.mono {seen maps : List FieldsMap} {q : ℚ} (hSeen : seen <+: maps)
    (h : Delivered seen q) : Delivered maps q := by
  obtain ⟨map, hMap, hDelivered⟩ := h
  exact ⟨map, hSeen.subset hMap, hDelivered⟩

/-- The conversions of a row stay in range exactly as long as the doubles delivered to it do. -/
theorem scaledFaithfully_iff (readObjid : ReadObjid) (folder name : Str) (maps : List FieldsMap) :
    ScaledFaithfully (10 ^ power folder) (rowAfter folder name readObjid) maps ↔
      ∀ q, Delivered maps q → Convertible (10 ^ power folder) q := by
  constructor
  · intro h q hDelivered
    obtain ⟨seen, hConversion⟩ := conversion_of_delivered readObjid folder name hDelivered
    have hRounded := h.rounded q _ hConversion
    rw [← power_rowAfter readObjid folder name seen] at hRounded ⊢
    exact getValue_rounded_iff.mp hRounded
  · intro h
    have hRounded : ∀ q answer, Conversion (rowAfter folder name readObjid) maps q answer →
        ∃ k, answer = .value (.integer k) ∧ -2 ^ 31 ≤ k ∧ k ≤ 2 ^ 31 - 1 ∧
          NearestAway (q * 10 ^ power folder) k := by
      intro q answer hConversion
      obtain ⟨seen, m, hSeen, hm, hq, rfl⟩ := hConversion.cases
      have hConvertible : Convertible (10 ^ power folder) q := by
        rcases get_rowAfter readObjid folder name seen hm with hZero | hDelivered
        · rw [hq, hZero]
          exact convertible_zero _
        · exact h q (hq ▸ hDelivered.mono hSeen)
      rw [← power_rowAfter readObjid folder name seen] at hConvertible ⊢
      exact getValue_rounded_iff.mpr hConvertible
    refine ⟨hRounded, fun q q' k k' hConversion hConversion' hq => ?_⟩
    obtain ⟨_, ⟨⟩, -, -, hNearest⟩ := hRounded q _ hConversion
    obtain ⟨_, ⟨⟩, -, -, hNearest'⟩ := hRounded q' _ hConversion'
    exact hNearest.mono hNearest' (mul_le_mul_of_nonneg_right hq (by positivity))

/-- A temperature of three million degrees has no thousandfold among the values of `int`. -/
theorem hot_sensor_undefined :
    let folder := Str.lit "/xyz/openbmc_project/sensors/temperature"
    let maps := [.ofList [(Str.lit "Value", .double 3000000)]]
    getSnmpReply (rowAfter folder (Str.lit "ambient") (fun _ => none) maps) 2 = .undefined ∧
      ¬ ScaledFaithfully (10 ^ power folder)
        (rowAfter folder (Str.lit "ambient") fun _ => none) maps := by
  intro folder maps
  have hReply : getSnmpReply (rowAfter folder (Str.lit "ambient") (fun _ => none) maps) 2 = .undefined := by
    decide +kernel
  refine ⟨hReply, fun h => ?_⟩
  have hValue : ⟨2, Str.lit "Value", Sensor.value⟩ ∈ measures := List.mem_cons_self
  obtain ⟨k, hAnswer, -⟩ := h.rounded _ _ (.reply maps _ List.prefix_rfl hValue)
  rw [hReply] at hAnswer
  cases hAnswer

end YadroSnmp.Sensors
