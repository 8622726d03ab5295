import Mathlib.Data.List.Nodup
import Mathlib.Logic.Relation
import MessageCodec.Record.Default

/-! How message types hold each other. A bound on the number of messages in a chain, each
held by the one before it, excludes types that contain themselves. -/

namespace MessageCodec.Schema.Catalogue

variable {c : Catalogue} {m inner : Message} {n : Nat} {path : List String}

/-- This field of the first message is of the type of the second one. -/
def HoldsIn (c : Catalogue) (f : Field) (m inner : Message) : Prop :=
  f ∈ m.fields ∧ f.type = .message ∧ c.resolve? f.label m.package = some inner

/-- One message is the type of a field of another, whichever field that is. -/
def Holds (c : Catalogue) (m inner : Message) : Prop := ∃ f, c.HoldsIn f m inner

theorem HoldsIn.holds {f : Field} (holds : c.HoldsIn f m inner) : c.Holds m inner := ⟨f, holds⟩

/-- What is given for the nested messages of `m`, at any depth. States give values by name, and a
value that opens is one of a nested message, with a state for what is in it. -/
inductive Given {σ ν : Type} (c : Catalogue) (find? : σ → String → Option ν) (open? : ν → Option σ) :
    Message → σ → ν → Prop where
  | here {f : Field} {m inner : Message} {s : σ} {v : ν} (holds : c.HoldsIn f m inner)
    (found : find? s f.name = some v) : Given c find? open? m s v
  | inside {f : Field} {m inner : Message} {s s' : σ} {w v : ν} (holds : c.HoldsIn f m inner)
    (found : find? s f.name = some w) (opens : open? w = some s')
    (given : Given c find? open? inner s' v) : Given c find? open? m s v

/-- No chain of messages that starts at `m`, each held by the one before it, is longer than `n`. -/
def NestsWithin (c : Catalogue) (n : Nat) (m : Message) : Prop :=
  ∀ ms, List.IsChain c.Holds (m :: ms) → (m :: ms).length ≤ n

theorem NestsWithin.pos (nests : c.NestsWithin n m) : 0 < n :=
  nests [] (.singleton m)

theorem NestsWithin.mono {k : Nat} (nests : c.NestsWithin n m) (le : n ≤ k) : c.NestsWithin k m :=
  fun ms chain => Nat.le_trans (nests ms chain) le

theorem NestsWithin.of_holds (nests : c.NestsWithin (n + 1) m) (holds : c.Holds m inner) :
    c.NestsWithin n inner := by
  intro ms chain
  exact Nat.le_of_succ_le_succ (nests (inner :: ms) (List.isChain_cons_cons.2 ⟨holds, chain⟩))

theorem nestsWithin_succ (inner : ∀ inner, c.Holds m inner → c.NestsWithin n inner) :
    c.NestsWithin (n + 1) m := by
  intro ms chain
  cases chain with
  | singleton => exact Nat.succ_le_succ (Nat.zero_le n)
  | cons_cons holds chain => exact Nat.succ_le_succ (inner _ holds _ chain)

/-- A message whose chains are bounded does not contain itself. -/
theorem NestsWithin.not_recursive (nests : c.NestsWithin n m) :
    ¬ Relation.TransGen c.Holds m m := by
  intro cycle
  induction n generalizing m with
  | zero => exact absurd nests.pos (Nat.lt_irrefl 0)
  | succ n ih =>
    obtain ⟨inner, holds, back⟩ := Relation.TransGen.head'_iff.1 cycle
    exact ih (nests.of_holds holds) (Relation.TransGen.tail' back holds)

/-- The names on a path are those of messages around `m`, its own included. -/
def Encloses (c : Catalogue) (path : List String) (m : Message) : Prop :=
  ∀ name ∈ path, ∃ outer ∈ c, outer.longName = name ∧ Relation.ReflTransGen c.Holds outer m

theorem encloses_self (mem : m ∈ c) : c.Encloses [m.longName] m := by
  intro name on
  exact ⟨m, mem, (List.mem_singleton.1 on).symm, .refl⟩

theorem Encloses.of_holds (around : c.Encloses path m) (holds : c.Holds m inner) (mem : inner ∈ c) :
    c.Encloses (inner.longName :: path) inner := by
  intro name on
  rcases List.mem_cons.1 on with rfl | on
  · exact ⟨inner, mem, rfl, .refl⟩
  · obtain ⟨outer, outside, named, chain⟩ := around name on
    exact ⟨outer, outside, named, chain.tail holds⟩

theorem mem_of_holds (holds : c.Holds m inner) : inner ∈ c := by
  obtain ⟨f, -, -, resolved⟩ := holds
  exact mem_of_resolve? resolved

/-- Where names are distinct and chains are bounded, a message that is held is none of those
around it. -/
theorem Encloses.fresh (around : c.Encloses path m) (names : (c.map (·.longName)).Nodup)
    (nests : c.NestsWithin n m) (holds : c.Holds m inner) : inner.longName ∉ path := by
  intro on
  obtain ⟨outer, outside, named, chain⟩ := around inner.longName on
  obtain rfl := List.inj_on_of_nodup_map names outside (mem_of_holds holds) named
  exact nests.not_recursive (Relation.TransGen.head' holds chain)

/-- The default of `m` goes at most `n` levels down, when the names on a path are around it. -/
def ExpandsWithin (c : Catalogue) : Nat → List String → Message → Prop
  | 0, _, _ => False
  | n + 1, path, m => ∀ inner, c.Holds m inner → inner.longName ∉ path →
    c.ExpandsWithin n (inner.longName :: path) inner

theorem NestsWithin.expandsWithin (nests : c.NestsWithin n m) (path : List String) :
    c.ExpandsWithin n path m := by
  induction n generalizing m path with
  | zero => exact absurd nests.pos (Nat.lt_irrefl 0)
  | succ n ih => exact fun inner holds _ => ih (nests.of_holds holds) _

end MessageCodec.Schema.Catalogue
