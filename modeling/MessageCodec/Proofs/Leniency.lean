import MessageCodec.MessagePack.Decoder
import MessageCodec.Proofs.Decimal.Large
import MessageCodec.Proofs.Wire.Narrowing

/-! Integer fields that are filled from values of other types. Where a JSON or MessagePack value
amounts to a number, an integer field takes the number, cut off toward zero, if that is in the range
of its type, and nothing else. A NaN is no number, and yet the field is set to zero by it. -/

namespace MessageCodec

open Binary

namespace ScalarType

def IsInteger : ScalarType → Prop
  | int _ => True
  | uint _ => True
  | _ => False

def inRange? : (t : ScalarType) → Int → Option t.Value
  | int w, i => signedInRange? w i
  | uint w, i => unsignedInRange? w i
  | _, _ => none

/-- What an integer field with some value holds after it is shown something that may amount to a
number. -/
def Settles (t : ScalarType) (before : t.Value) : Option Amount → t.Value → Prop
  | some (.finite q), after =>
    (t.Holds (towardZero q) → t.number? after = some (towardZero q)) ∧
      (¬ t.Holds (towardZero q) → after = before)
  | some .nan, after => t.number? after = some 0
  | some .infinite, after => after = before
  | none, after => after = before

variable {t : ScalarType}

theorem not_holds_of_beyond (integer : t.IsInteger) {i : Int} (beyond : Beyond i) :
    ¬ t.Holds i := by
  cases t with
  | int w => cases w <;> simp only [Holds, Beyond, Width.bits] at beyond ⊢ <;> omega
  | uint w => cases w <;> simp only [Holds, Beyond, Width.bits] at beyond ⊢ <;> omega
  | _ => cases integer

theorem inRange?_of_holds {i : Int} (holds : t.Holds i) (integer : t.IsInteger) :
    ∃ v, t.inRange? i = some v ∧ t.number? v = some i := by
  cases t with
  | int w =>
    have back (i : Int) (low : -2 ^ (w.bits - 1) ≤ i) (high : i < 2 ^ (w.bits - 1)) :
        (BitVec.ofInt w.bits i).toInt = i := by
      rw [BitVec.toInt_ofInt]
      cases w <;> exact Int.bmod_eq_of_le low high
    exact ⟨_, by cases w <;> exact if_pos holds, congrArg some (back i holds.1 holds.2)⟩
  | uint w =>
    have back : (BitVec.ofInt w.bits i).toNat = i := by
      rw [BitVec.toNat_ofInt, Int.toNat_of_nonneg (Int.emod_nonneg _ (by simp))]
      exact Int.emod_eq_of_lt holds.1 (by exact_mod_cast holds.2)
    exact ⟨_, by cases w <;> exact if_pos holds, congrArg some back⟩
  | _ => cases integer

theorem inRange?_of_not_holds {i : Int} (outside : ¬ t.Holds i) (integer : t.IsInteger) :
    t.inRange? i = none := by
  cases t with
  | int w =>
    cases w <;> exact if_neg outside
  | uint w =>
    cases w <;> exact if_neg outside
  | _ => cases integer

/-- What a decoder takes for a value settles the field as the amount of the value does. -/
theorem settles_of_represents (integer : t.IsInteger) {x : Option Amount} {i? : Option Int}
    (represents : Represents x i?) (before : t.Value) :
    t.Settles before x ((i?.bind t.inRange?).getD before) := by
  have unreached {i : Int} (beyond : Beyond i) : (t.inRange? i).getD before = before := by
    rw [inRange?_of_not_holds (not_holds_of_beyond integer beyond) integer, Option.getD_none]
  cases x with
  | none =>
    cases represents
    rfl
  | some x =>
    cases x with
    | nan =>
      cases represents
      have zero : t.Holds 0 := by
        cases t with
        | int w => simp [Holds]
        | uint w => simp [Holds]
        | _ => cases integer
      obtain ⟨v, fits, number⟩ := inRange?_of_holds zero integer
      rw [Option.bind_some, fits]
      exact number
    | infinite =>
      obtain ⟨i, rfl, beyond⟩ := represents
      exact unreached beyond
    | finite q =>
      obtain ⟨i, rfl, exact | ⟨here, there⟩⟩ := represents
      · subst exact
        constructor
        · intro holds
          obtain ⟨v, fits, number⟩ := inRange?_of_holds holds integer
          rw [Option.bind_some, fits]
          exact number
        · intro outside
          rw [Option.bind_some, inRange?_of_not_holds outside integer, Option.getD_none]
      · exact ⟨fun holds => absurd holds (not_holds_of_beyond integer there), fun _ => unreached here⟩

/-- A decoder that gives an integer field the integers that stand for amounts settles it. -/
theorem settles_of_fits (integer : t.IsInteger) {V : Type} {amount? : V → Option Amount}
    {integer? : V → Option Int} {fit? : V → Option t.Value}
    (represents : ∀ v, Represents (amount? v) (integer? v))
    (fits : ∀ v, fit? v = (integer? v).bind t.inRange?) (found : Option V) (before : t.Value) :
    t.Settles before (found.bind amount?) ((found.bind fit?).getD before) := by
  cases found with
  | none => exact rfl
  | some v =>
    rw [Option.bind_some, Option.bind_some, fits]
    exact settles_of_represents integer (represents v) before

end ScalarType

namespace Json

/-- The amount of the number in a text: an integer, or else a number in double precision. -/
def amountInText? (s : String) : Option Amount :=
  let trimmed := Text.trim s.toList
  match Decimal.readInt? trimmed with
  | some i => some (.finite i)
  | none => (Decimal.readDouble? trimmed).map fun bits => (Format.double.decode bits.toNat).amount

def amount? : Json → Option Amount
  | number (.integer i) => some (.finite i)
  | number (.double bits) => some (Format.double.decode bits.toNat).amount
  | string s => amountInText? s
  | bool b => some (.finite b.toInt)
  | _ => none

theorem represents_integerInText? (s : String) :
    Represents (amountInText? s) (integerInText? s) := by
  simp only [amountInText?, integerInText?]
  split
  · rename_i i read
    rw [read, Option.filter_some]
    split
    · exact represents_intCast i
    · rename_i wide
      have large : 2 ^ 127 ≤ i.natAbs := by
        rw [Bool.and_eq_true, decide_eq_true_eq, decide_eq_true_eq, wideLimit] at wide
        omega
      obtain ⟨bits, number, beyond⟩ := Decimal.beyond_of_readInt? read large
      refine ⟨truncateDouble bits, by rw [number]; rfl, .inr ⟨beyond, ?_⟩⟩
      rw [towardZero_intCast, Beyond]
      omega
  · rename_i unread
    rw [unread, Option.filter_none, Option.none_or]
    cases Decimal.readDouble? (Text.trim s.toList) with
    | none => rfl
    | some bits => exact represents_truncate _

theorem represents_integer? (j : Json) : Represents j.amount? j.integer? := by
  cases j with
  | number n =>
    cases n with
    | integer i => exact represents_intCast i
    | double bits => exact represents_truncate _
  | string s => exact represents_integerInText? s
  | bool b => exact represents_intCast b.toInt
  | _ => rfl

theorem fit?_integer {t : ScalarType} (integer : t.IsInteger) (j : Json) :
    fit? t j = j.integer?.bind t.inRange? := by
  cases t with
  | int w => rfl
  | uint w => rfl
  | _ => cases integer

end Json

namespace MessagePack

def amount? : MessagePack → Option Amount
  | integer i => some (.finite i)
  | single bits => some (Format.single.decode bits.toNat).amount
  | double bits => some (Format.double.decode bits.toNat).amount
  | bool b => some (.finite b.toInt)
  | _ => none

theorem represents_integer? (v : MessagePack) : Represents v.amount? v.integer? := by
  cases v with
  | integer i => exact represents_intCast i
  | single bits => exact represents_truncate _
  | double bits => exact represents_truncate _
  | bool b => exact represents_intCast b.toInt
  | _ => rfl

theorem fit?_integer {t : ScalarType} (integer : t.IsInteger) (v : MessagePack) :
    fit? t v = v.integer?.bind t.inRange? := by
  cases t with
  | int w => rfl
  | uint w => rfl
  | _ => cases integer

end MessagePack

/-- A field of an integer type is shown to a decoder of JSON objects or of MessagePack maps, whatever
it holds. It keeps its value when there is nothing under its name, when what is there does not amount
to a number or is infinite, or when the number, cut off toward zero, is out of range. If it is in
range, the field holds exactly that. A NaN sets the field to zero. -/
theorem integer_settles {t : ScalarType} (integer : t.IsInteger) (tag : FieldTag)
    (before : t.Value) :
    (∀ members : Json.Members,
      t.Settles before ((members.find? tag.name).bind Json.amount?)
        (Json.decoder.scalar tag t before members).1) ∧
    ∀ table : MessagePack.Table,
      t.Settles before ((table.find? tag.name).bind MessagePack.amount?)
        (MessagePack.decoder.scalar tag t before table).1 := by
  constructor
  · intro members
    exact ScalarType.settles_of_fits integer Json.represents_integer? (Json.fit?_integer integer)
      (members.find? tag.name) before
  · intro table
    exact ScalarType.settles_of_fits integer MessagePack.represents_integer?
      (MessagePack.fit?_integer integer) (table.find? tag.name) before

/-- A text in a member, and a fraction at the end of the range in a map. -/
theorem integer_settles_fraction :
    let t : ScalarType := .int .w8
    let tag : FieldTag := ⟨1, "int8", "v"⟩
    t.IsInteger ∧
      t.number? (Json.decoder.scalar tag t 5 [("v", .string " -7.5 ")]).1 = some (-7) ∧
      t.number? (MessagePack.decoder.scalar tag t 5 [("v", .double 0x405fe00000000000)]).1 =
        some 127 := by
  intro t tag
  have integer : t.IsInteger := trivial
  obtain ⟨json, pack⟩ := integer_settles integer tag 5
  have text : Json.amount? (.string " -7.5 ") =
      some (.finite (-(8444249301319680 * 2 ^ (-50 : Int)))) := by
    have noInteger : Decimal.readInt? (Text.trim " -7.5 ".toList) = none := by decide +kernel
    have double : Decimal.readDouble? (Text.trim " -7.5 ".toList) = some 0xc01e000000000000 := by
      decide +kernel
    have decoded : Format.double.decode (0xc01e000000000000 : UInt64).toNat =
        .finite true 8444249301319680 (-50) := rfl
    rw [Json.amount?, Json.amountInText?, noInteger, double, Option.map_some, decoded, Number.amount]
    simp
  have fraction : MessagePack.amount? (.double 0x405fe00000000000) =
      some (.finite (8972014882652160 * 2 ^ (-46 : Int))) := by
    have decoded : Format.double.decode (0x405fe00000000000 : UInt64).toNat =
        .finite false 8972014882652160 (-46) := rfl
    rw [MessagePack.amount?, decoded, Number.amount]
    simp
  have seven : towardZero (-(8444249301319680 * 2 ^ (-50 : Int))) = -7 := by
    norm_num [towardZero, Int.ceil_eq_iff]
  have most : towardZero (8972014882652160 * 2 ^ (-46 : Int)) = 127 := by
    norm_num [towardZero, Int.floor_eq_iff]
  have first := json [("v", .string " -7.5 ")]
  have second := pack [("v", .double 0x405fe00000000000)]
  have found : Json.Members.find? [("v", .string " -7.5 ")] tag.name = some (.string " -7.5 ") := rfl
  have there : MessagePack.Table.find? [("v", .double 0x405fe00000000000)] tag.name =
      some (.double 0x405fe00000000000) := rfl
  rw [found, Option.bind_some, text, ScalarType.Settles, seven] at first
  rw [there, Option.bind_some, fraction, ScalarType.Settles, most] at second
  have low : t.Holds (-7) := by simp [t, ScalarType.Holds]
  have high : t.Holds 127 := by simp [t, ScalarType.Holds]
  exact ⟨integer, first.1 low, second.1 high⟩

/-- A NaN is no number, but fields do not keep their values. -/
theorem scalar_nan :
    (Json.decoder.scalar ⟨1, "uint8", "v"⟩ (.uint .w8) 42 [("v", .string "nan")]).1 = 0 ∧
      (MessagePack.decoder.scalar ⟨1, "uint8", "v"⟩ (.uint .w8) 42 [("v", .single 0x7fc00000)]).1 =
        0 := by
  decide +kernel

end MessageCodec
