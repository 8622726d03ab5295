import MessageCodec.Proofs.Json.Agreement
import MessageCodec.Proofs.MessagePack.Records
import MessageCodec.Proofs.Record.Expansion
import MessageCodec.Proofs.Wire.Records
import MessageCodec.Wire.Encoder

/-! Records made from nothing. A decoder without values to give builds the default record as long as
that is not too deep for it, and the default record has an empty binary form, since all of its
scalars are default. -/

namespace MessageCodec

open Schema (Catalogue)

/-- Every scalar among entries is default, at every depth. -/
def Entries.Blank : Entries → Prop
  | nil => True
  | scalar _ s rest => s.isDefault ∧ rest.Blank
  | record _ _ _ inner rest => inner.Blank ∧ rest.Blank

def Value.Blank : Value → Prop
  | scalar s => s.isDefault
  | record r => r.entries.Blank

theorem ScalarType.isDefault_zero (t : ScalarType) : t.isDefault t.zero := by
  cases t <;> rfl

namespace Entries

variable {entries rest : Entries} {id i : UInt32} {v : Value}

@[simp]
theorem blank_cons : (cons id v rest).Blank ↔ v.Blank ∧ rest.Blank := by
  cases v <;> rfl

theorem Blank.insert (blank : entries.Blank) (i : UInt32) (inner : v.Blank) :
    (entries.insert i v).Blank := by
  induction entries using cons_induction with
  | nil => exact blank_cons.2 ⟨inner, trivial⟩
  | cons id w rest ih =>
    rw [blank_cons] at blank
    rw [insert_cons]
    split
    · exact blank_cons.2 ⟨inner, blank.2⟩
    · exact blank_cons.2 ⟨blank.1, ih blank.2⟩

theorem Blank.of_get? (blank : entries.Blank) (held : entries.get? i = some v) : v.Blank := by
  induction entries using cons_induction with
  | nil => cases held
  | cons id w rest ih =>
    rw [blank_cons] at blank
    rw [get?_cons] at held
    split at held
    · cases held
      exact blank.1
    · exact ih blank.2 held

end Entries

namespace Record

variable {c : Catalogue} {path : List String} {package : String} {s : Schema.Message} {n : Nat}

theorem blank_addDefaults (fs : List Schema.Field) {entries : Entries} (blank : entries.Blank) :
    (addDefaults c path package fs entries).Blank := by
  fun_induction addDefaults c path package fs entries with
  | case1 => exact blank
  | case2 _ _ _ _ _ _ ih => exact ih blank
  | case3 _ _ _ _ _ t _ ih => exact ih (blank.insert _ t.isDefault_zero)
  | case4 _ _ _ _ _ _ _ ih => exact ih blank
  | case5 _ _ _ _ _ _ _ _ _ ih => exact ih blank
  | case6 =>
    rename_i ihInner ih
    exact ih (blank.insert _ (ihInner trivial))

/-- A decoder without values to give builds the default record, if that is not too deep for it. -/
theorem ofDecoder_of_idle {σ : Type} {d : Decoder σ} {Idle : σ → Prop} (rests : d.Rests Idle)
    (expands : c.ExpandsWithin maxLevels [s.longName] s) {state : σ} (idle : Idle state) :
    (ofDecoder d s c state).1 = ofSchema s c := by
  obtain ⟨entries, -⟩ := addDecoded_of_idle rests expands (Nat.le_of_eq (Nat.add_comm 1 maxLevels))
    .nil (rests.start s.header idle)
  exact congrArg (Record.mk s c) entries

end Record

namespace Wire.Encoding

variable {e : Encoding} {n : Nat}

theorem scalar_of_isDefault {t : ScalarType} {v : t.Value} (default : t.isDefault v) (id : UInt32) :
    e.scalar id t v = e := if_pos default

theorem message_empty (e : Encoding) (id : UInt32) : e.message id empty = e := rfl

/-- Nothing is written of fields whose values are default, if nothing is written of the records
among them. -/
theorem walkFields_of_blank
    (nested : ∀ r : Record, r.entries.levels < n → r.entries.Blank →
      ∀ e, (r.walk pass e).1.entries.Blank ∧ (r.walk pass e).2 = e)
    (fs : List Schema.Field) {entries : Entries} (blank : entries.Blank)
    (levels : entries.levels ≤ n) (e : Encoding) :
    (Record.walkFields pass fs (entries, e)).1.Blank ∧
      (Record.walkFields pass fs (entries, e)).2 = e := by
  induction fs generalizing entries with
  | nil => exact ⟨blank, rfl⟩
  | cons f fs ih =>
    have deep : (Record.walkField pass (Record.walk pass) (entries, e) f).1.levels =
        entries.levels :=
      Record.levels_walkField (fun r s => Record.levels_walkWithin pass _ r s) _ f
    obtain ⟨stays, same⟩ : (Record.walkField pass (Record.walk pass) (entries, e) f).1.Blank ∧
        (Record.walkField pass (Record.walk pass) (entries, e) f).2 = e := by
      cases held : entries.get? f.id with
      | none =>
        rw [Record.walkField_of_absent held]
        exact ⟨blank, rfl⟩
      | some v =>
        rw [Record.walkField_of_held held]
        have own := blank.of_get? held
        cases v with
        | scalar x => exact ⟨blank.insert _ own, scalar_of_isDefault own f.id⟩
        | record r =>
          have deeper : r.entries.levels < n :=
            Nat.lt_of_lt_of_le (Entries.levels_le_of_get? held) levels
          obtain ⟨inner, nothing⟩ := nested r deeper own empty
          have opened : pass.enter f.tag e = (e, some empty) := rfl
          rw [Value.walk, Pass.descend_of_opened opened, nothing]
          exact ⟨blank.insert _ inner, message_empty e f.id⟩
    have step : Record.walkField pass (Record.walk pass) (entries, e) f =
        ((Record.walkField pass (Record.walk pass) (entries, e) f).1, e) := Prod.ext rfl same
    rw [Record.walkFields_cons, step]
    exact ih stays (Nat.le_trans (Nat.le_of_eq deep) levels)

theorem walk_of_blank {r : Record} (blank : r.entries.Blank) (e : Encoding) :
    (r.walk pass e).1.entries.Blank ∧ (r.walk pass e).2 = e := by
  induction levels : r.entries.levels using Nat.strongRecOn generalizing r e with
  | ind n ih =>
    subst levels
    rw [Record.walk_eq]
    exact walkFields_of_blank (fun inner shallow blank e => ih _ shallow blank e rfl)
      r.schema.fields blank (Nat.le_refl _) e

end Wire.Encoding

namespace Record

/-- From no bytes at all, the decoders of the binary form, of JSON and of MessagePack build the
default record, whatever the messages of the catalogue hold, as long as the default expands over at
most 64 levels. Its binary form is empty. -/
theorem decode_nil {s : Schema.Message} {c : Catalogue}
    (expands : c.ExpandsWithin maxLevels [s.longName] s) :
    (decode Wire.decoder s c []).1 = ofSchema s c ∧
      (decode Json.decoder s c []).1 = ofSchema s c ∧
      (decode MessagePack.decoder s c []).1 = ofSchema s c ∧
      ((ofSchema s c).walk Wire.Encoding.pass .empty).2.bytes = [] := by
  have blank : (ofSchema s c).entries.Blank := blank_addDefaults s.fields trivial
  obtain ⟨-, nothing⟩ := Wire.Encoding.walk_of_blank blank .empty
  exact ⟨ofDecoder_of_idle Wire.decoder_rests expands Wire.decoder_rests.prime,
    ofDecoder_of_idle Json.decoder_rests expands Json.decoder_rests.prime,
    ofDecoder_of_idle MessagePack.decoder_rests expands MessagePack.decoder_rests.prime,
    congrArg Wire.Encoding.bytes nothing⟩

theorem decode_nil_folder :
    Schema.Catalogue.ExpandsWithin [folder, folderEntry] maxLevels [folder.longName] folder ∧
      (decode Wire.decoder folder [folder, folderEntry] []).1 =
        ofSchema folder [folder, folderEntry] ∧
      (decode Json.decoder folder [folder, folderEntry] []).1 =
        ofSchema folder [folder, folderEntry] ∧
      (decode MessagePack.decoder folder [folder, folderEntry] []).1 =
        ofSchema folder [folder, folderEntry] ∧
      ((ofSchema folder [folder, folderEntry]).walk Wire.Encoding.pass .empty).2.bytes = [] := by
  have expands := (Schema.Catalogue.expandsWithin_longNames [folder, folderEntry] folder).mono
    (show _ ≤ maxLevels by decide)
  exact ⟨expands, decode_nil expands⟩

end Record

end MessageCodec
