import MessageCodec.Proofs.Record.Decode
import MessageCodec.Proofs.Schema.Resolution
import MessageCodec.Wire.Decoder

/-! The order of the messages in a specification. A record is made from what labels stand for, and
that does not depend on the order; so with the messages in another order, defaults and decoded
records differ in the catalogue that they keep, and in nothing else. -/

namespace MessageCodec

open Schema (Catalogue Declares Unambiguous)

/-- The entries with another catalogue kept in their records. -/
def Entries.withCatalogue (c : Catalogue) : Entries → Entries
  | nil => nil
  | scalar id s rest => scalar id s (rest.withCatalogue c)
  | record id schema _ inner rest =>
    record id schema c (inner.withCatalogue c) (rest.withCatalogue c)

def Record.withCatalogue (c : Catalogue) (r : Record) : Record :=
  ⟨r.schema, c, r.entries.withCatalogue c⟩

def Value.withCatalogue (c : Catalogue) : Value → Value
  | scalar s => scalar s
  | record r => record (r.withCatalogue c)

variable {c c' : Catalogue} {path : List String} {package : String}

namespace Entries

theorem withCatalogue_cons (id : UInt32) (v : Value) (rest : Entries) :
    (cons id v rest).withCatalogue c = cons id (v.withCatalogue c) (rest.withCatalogue c) := by
  cases v <;> rfl

theorem withCatalogue_insert (id : UInt32) (v : Value) (entries : Entries) :
    (entries.insert id v).withCatalogue c =
      (entries.withCatalogue c).insert id (v.withCatalogue c) := by
  induction entries using cons_induction with
  | nil => exact withCatalogue_cons id v nil
  | cons id' w rest ih =>
    rw [insert_cons, withCatalogue_cons, insert_cons]
    split
    · rw [withCatalogue_cons]
    · rw [withCatalogue_cons, ih]

theorem content?_withCatalogue (entries : Entries) :
    (entries.withCatalogue c).content? = entries.content? := by
  induction entries with
  | nil => rfl
  | scalar id s rest ih =>
    funext wanted
    rw [withCatalogue, content?, content?, ih]
  | record id schema _ inner rest ihInner ih =>
    funext wanted
    rw [withCatalogue, content?, content?, ih, ihInner]

end Entries

namespace Record

theorem view_withCatalogue (r : Record) : (r.withCatalogue c).view = r.view := by
  rw [view, withCatalogue, Entries.content?_withCatalogue, view]

/-- Defaults depend on a catalogue only in what labels stand for. -/
theorem addDefaults_withCatalogue
    (same : ∀ label package, c'.resolve? label package = c.resolve? label package)
    (fs : List Schema.Field) (entries : Entries) :
    addDefaults c' path package fs (entries.withCatalogue c') =
      (addDefaults c path package fs entries).withCatalogue c' := by
  fun_induction addDefaults c path package fs entries with
  | case1 => rw [addDefaults_nil]
  | case2 path package f fs entries type ih =>
    rw [addDefaults_cons, default?, type]
    exact ih
  | case3 path package f fs entries t type ih =>
    rw [addDefaults_cons, default?, type]
    rw [Entries.withCatalogue_insert] at ih
    exact ih
  | case4 path package f fs entries type unresolved ih =>
    rw [addDefaults_cons, default?, type, same, unresolved]
    exact ih
  | case5 path package f fs entries type m resolved around ih =>
    rw [addDefaults_cons, default?, type]
    simp only [same, resolved, Option.bind_some, if_pos around]
    exact ih
  | case6 path package f fs entries type m resolved fresh _ inner ihInner ih =>
    rw [Entries.withCatalogue_insert] at ih
    rw [addDefaults_cons, default?, type]
    simp only [same, resolved, Option.bind_some, if_neg fresh]
    rw [Entries.withCatalogue] at ihInner
    rw [ihInner]
    exact ih

/-- What a decoder builds, and the state it is left in, depend on a catalogue only in what labels
stand for. -/
theorem addDecoded_withCatalogue {σ : Type} (d : Decoder σ)
    (same : ∀ label package, c'.resolve? label package = c.resolve? label package)
    (fs : List Schema.Field) (entries : Entries) (s : σ) :
    addDecoded d c' path package fs (entries.withCatalogue c') s =
      ((addDecoded d c path package fs entries s).1.withCatalogue c',
        (addDecoded d c path package fs entries s).2) := by
  fun_induction addDecoded d c path package fs entries s with
  | case1 => rw [addDecoded_nil]
  | case2 path package f fs entries s type ih =>
    rw [addDecoded_cons, decoded?, type]
    exact ih
  | case3 path package f fs entries s t type v s' read ih =>
    rw [Entries.withCatalogue_insert] at ih
    rw [addDecoded_cons, decoded?, type]
    simp only [read]
    exact ih
  | case4 path package f fs entries s type unresolved ih =>
    rw [addDecoded_cons, decoded?, type, same, unresolved]
    exact ih
  | case5 path package f fs entries s type m resolved bs s' read around ih =>
    rw [addDecoded_cons, decoded?, type]
    simp only [same, resolved, decodedInner?, read, if_pos around]
    exact ih
  | case6 path package f fs entries s type m resolved bs s' read opened deep ih =>
    rw [addDecoded_cons, decoded?, type]
    simp only [same, resolved, decodedInner?, read, if_neg opened, if_pos deep]
    exact ih
  | case7 path package f fs entries s type m resolved bs s' read opened shallow inner nested built
      ihInner ih =>
    rw [Entries.withCatalogue, built] at ihInner
    rw [Entries.withCatalogue_insert] at ih
    rw [addDecoded_cons, decoded?, type]
    simp only [same, resolved, decodedInner?, read, if_neg opened, if_neg shallow, ihInner]
    exact ih

theorem ofSchema_withCatalogue
    (same : ∀ label package, c'.resolve? label package = c.resolve? label package)
    (m : Schema.Message) : ofSchema m c' = (ofSchema m c).withCatalogue c' :=
  congrArg (Record.mk m c') (addDefaults_withCatalogue same m.fields .nil)

theorem decode_withCatalogue {σ : Type} (d : Decoder σ)
    (same : ∀ label package, c'.resolve? label package = c.resolve? label package)
    (m : Schema.Message) (bs : Bytes) :
    decode d m c' bs = ((decode d m c bs).1.withCatalogue c', (decode d m c bs).2) := by
  have built := @addDecoded_withCatalogue c c' [m.longName] m.package σ d same m.fields .nil
    (d.start m.header (d.prime bs))
  rw [Entries.withCatalogue] at built
  rw [decode, ofDecoder, built]
  rfl

/-- The messages of a specification can stand in any order. They are accepted in the other order,
too, and with it the default of a message type and what a decoder builds for it from bytes show the
same and have the same catalogue everywhere, the one in that order; and the decoder is left in the
same state. -/
theorem decode_of_perm {text : String} {ms ms' : List Schema.Message}
    (read : Schema.parse text = .ok ms) (perm : ms.Perm ms') :
    (∀ text', Declares text' ms' → Schema.parse text' = .ok ms') ∧
      ∀ m : Schema.Message,
        (ofSchema m ms' = (ofSchema m ms).withCatalogue ms' ∧
          (ofSchema m ms').view = (ofSchema m ms).view) ∧
        ∀ {σ : Type} (d : Decoder σ) (bs : Bytes),
          (decode d m ms' bs).1 = (decode d m ms bs).1.withCatalogue ms' ∧
            (decode d m ms' bs).1.view = (decode d m ms bs).1.view ∧
            (decode d m ms' bs).2 = (decode d m ms bs).2 := by
  have clean := (Schema.unambiguous_of_parse read).perm perm
  obtain ⟨package, within, -⟩ := Catalogue.exists_package read
  have same := within.resolve?_perm perm
  refine ⟨fun text' declared => Schema.parse_of_unambiguous declared clean, fun m => ⟨?_, ?_⟩⟩
  · have made := ofSchema_withCatalogue same m
    exact ⟨made, made ▸ view_withCatalogue _⟩
  · intro σ d bs
    rw [decode_withCatalogue d same m bs]
    exact ⟨rfl, view_withCatalogue _, rfl⟩

def treeText : String :=
  "package p; message Node [id = 1] \x7b Leaf leaf [id = 1]; p.Node next [id = 2]; \x7d " ++
    "message Leaf [id = 2] \x7b uint8 v [id = 1]; \x7d"

def treeNode : Schema.Message :=
  ⟨"p", "Node", 1, [.nested "Leaf" "leaf" 1, .nested "p.Node" "next" 2]⟩

def treeLeaf : Schema.Message := ⟨"p", "Leaf", 2, [.plain (.scalar (.uint .w8)) "v" 1]⟩

/-- A node with a leaf, and a node behind it with another leaf. -/
def treeBytes : Bytes := [0x0a, 2, 0x08, 5, 0x12, 4, 0x0a, 2, 0x08, 6]

theorem decode_of_perm_tree : Schema.parse treeText = .ok [treeNode, treeLeaf] ∧
    (decode Wire.decoder treeNode [treeLeaf, treeNode] treeBytes).1.view =
        (decode Wire.decoder treeNode [treeNode, treeLeaf] treeBytes).1.view ∧
      (decode Wire.decoder treeNode [treeLeaf, treeNode] treeBytes).2 =
        (decode Wire.decoder treeNode [treeNode, treeLeaf] treeBytes).2 := by
  have read : Schema.parse treeText = .ok [treeNode, treeLeaf] :=
    Schema.parse_of_toOption (by decide +kernel)
  have perm : [treeNode, treeLeaf].Perm [treeLeaf, treeNode] := .swap _ _ []
  exact ⟨read, (((decode_of_perm read perm).2 treeNode).2 Wire.decoder treeBytes).2⟩

end Record

end MessageCodec
