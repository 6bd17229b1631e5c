import RustSak.Memo.Store
import RustSak.Library.Text

/-!
# Keys out of parts

A key is the hash of its parts, each followed by a zero byte. A part goes in as
serde_json writes it; one that serde_json refuses goes in as a marker with the
name of its type. The serializer is a parameter: a part stands for a value
together with its type.
-/

namespace RustSak

namespace Memo

open Library

/-- What `serde_json::to_vec` makes of a part, and `type_name` of its type. -/
structure Serde (π : Type) where
  toVec : π → Option Bytes
  typeName : π → Bytes

def asciiBytes (text : String) : Bytes :=
  text.toList.map fun c => UInt8.ofNat c.toNat

/-- What stands for a part that cannot be serialized. -/
def unserializable (typeName : Bytes) : Bytes :=
  asciiBytes "!unserializable:" ++ typeName

def hexEncode (bytes : Bytes) : List Char :=
  bytes.flatMap fun b => [Nat.digitChar (b.toNat / 16), Nat.digitChar (b.toNat % 16)]

/-- The hasher, by what it has been fed. -/
structure KeyBuilder where
  hasher : Bytes

namespace KeyBuilder

variable {π : Type}

def new : KeyBuilder := ⟨[]⟩

/-- What a part is fed in as, before its separator. -/
def encoded (S : Serde π) (part : π) : Bytes :=
  match S.toVec part with
  | some bytes => bytes
  | none => unserializable (S.typeName part)

def part (S : Serde π) (b : KeyBuilder) (part : π) : KeyBuilder :=
  ⟨b.hasher ++ encoded S part ++ [0]⟩

def finish (sha256 : Bytes → Bytes) (b : KeyBuilder) : Key :=
  String.ofList (hexEncode (sha256 b.hasher))

/-- The builder after all of the parts. -/
def ofParts (S : Serde π) (parts : List π) : KeyBuilder := parts.foldl (part S) new

end KeyBuilder

def keyFrom {π : Type} (S : Serde π) (sha256 : Bytes → Bytes) (parts : List π) : Key :=
  (parts.foldl (KeyBuilder.part S) .new).finish sha256

namespace KeyBuilder

variable {π : Type} {S : Serde π}

theorem keyFrom_eq_finish (sha256 : Bytes → Bytes) (parts : List π) :
    keyFrom S sha256 parts = (ofParts S parts).finish sha256 := rfl

theorem hasher_foldl (parts : List π) (b : KeyBuilder) :
    (parts.foldl (part S) b).hasher =
      b.hasher ++ parts.flatMap fun p => encoded S p ++ [0] := by
  induction parts generalizing b with
  | nil => simp
  | cons p parts ih =>
      rw [List.foldl_cons, ih, List.flatMap_cons, part, List.append_assoc,
        List.append_assoc]
      simp only [List.append_assoc]

theorem hasher_ofParts (parts : List π) :
    (ofParts S parts).hasher = parts.flatMap fun p => encoded S p ++ [0] := by
  rw [ofParts, hasher_foldl, new, List.nil_append]

/-! ## When two keys are the same -/

/-- The parts serialize to the same bytes, or neither serializes and they are one
value of one type. -/
def Alike (S : Serde π) (p q : π) : Prop :=
  match S.toVec p, S.toVec q with
  | some bytes, some bytes' => bytes = bytes'
  | none, none => p = q
  | _, _ => False

/-- The parts serialize to the same bytes, or neither serializes and their types
have one name. -/
def SameMark (S : Serde π) (p q : π) : Prop :=
  match S.toVec p, S.toVec q with
  | some bytes, some bytes' => bytes = bytes'
  | none, none => S.typeName p = S.typeName q
  | _, _ => False

theorem SameMark.encoded_eq {p q : π} (h : SameMark S p q) :
    encoded S p = encoded S q := by
  unfold SameMark at h
  unfold encoded
  cases hp : S.toVec p with
  | some bytes =>
      cases hq : S.toVec q with
      | some bytes' => simpa [hp, hq] using h
      | none => simp [hp, hq] at h
  | none =>
      cases hq : S.toVec q with
      | some bytes' => simp [hp, hq] at h
      | none =>
          simp only [hp, hq] at h
          rw [h]

section

variable (hjson : ∀ p bytes, S.toVec p = some bytes → bytes.head? ≠ some 33)
include hjson

/-- JSON does not begin with the marker's exclamation mark, so the encodings of
two parts tell whether they were serialized. -/
theorem sameMark_of_encoded_eq {p q : π} (h : encoded S p = encoded S q) :
    SameMark S p q := by
  have hmark : ∀ name, (unserializable name).head? = some 33 := fun _ => rfl
  unfold encoded at h
  unfold SameMark
  cases hp : S.toVec p with
  | some bytes =>
      cases hq : S.toVec q with
      | some bytes' => simpa [hp, hq] using h
      | none =>
          simp only [hp, hq] at h
          exact hjson p bytes hp (h ▸ hmark _)
  | none =>
      cases hq : S.toVec q with
      | some bytes' =>
          simp only [hp, hq] at h
          exact hjson q bytes' hq (h ▸ hmark _)
      | none =>
          simp only [hp, hq] at h
          exact List.append_cancel_left h

variable (hnul : ∀ p bytes, S.toVec p = some bytes → 0 ∉ bytes)
  (hname : ∀ p, 0 ∉ S.typeName p)
include hnul hname

omit hjson in
/-- No part holds the separator. -/
theorem no_nul_encoded (p : π) : 0 ∉ encoded S p := by
  unfold encoded
  cases hp : S.toVec p with
  | some bytes => exact hnul p bytes hp
  | none =>
      rw [unserializable, List.mem_append, not_or]
      exact ⟨by decide, hname p⟩

/-- The hasher is fed the same bytes exactly when the parts bear the same marks,
one by one. -/
theorem hasher_eq_iff (ps qs : List π) :
    (ofParts S ps).hasher = (ofParts S qs).hasher ↔ List.Forall₂ (SameMark S) ps qs := by
  rw [hasher_ofParts, hasher_ofParts]
  constructor
  · intro h
    have hmap := Text.map_eq_of_terminated (no_nul_encoded hnul hname) h
    rw [← List.forall₂_eq_eq_eq, List.forall₂_map_left_iff,
      List.forall₂_map_right_iff] at hmap
    exact hmap.imp fun _ _ => sameMark_of_encoded_eq hjson
  · intro h
    induction h with
    | nil => rfl
    | cons hpq _ ih => rw [List.flatMap_cons, List.flatMap_cons, hpq.encoded_eq, ih]

/-- Two sequences of parts with one key are alike, part by part, exactly unless
they differ only in the values of parts that cannot be serialized: the marker
tells the type of such a part, and not its value. -/
theorem same_key_alike_iff (ps qs : List π) :
    ((ofParts S ps).hasher = (ofParts S qs).hasher → List.Forall₂ (Alike S) ps qs) ↔
      ¬ (List.Forall₂ (SameMark S) ps qs ∧
        ∃ pq ∈ ps.zip qs, S.toVec pq.1 = none ∧ S.toVec pq.2 = none ∧ pq.1 ≠ pq.2) := by
  rw [hasher_eq_iff hjson hnul hname]
  constructor
  · rintro h ⟨hsame, pq, hmem, hp, hq, hne⟩
    have halike := (List.forall₂_zip (h hsame)) hmem
    unfold Alike at halike
    rw [hp, hq] at halike
    exact hne halike
  · intro h hsame
    rw [List.forall₂_iff_zip]
    refine ⟨hsame.length_eq, fun {p q} hmem => ?_⟩
    have hmark := (List.forall₂_zip hsame) hmem
    unfold SameMark at hmark
    unfold Alike
    cases hp : S.toVec p with
    | some bytes =>
        cases hq : S.toVec q with
        | some bytes' => simpa [hp, hq] using hmark
        | none => simp [hp, hq] at hmark
    | none =>
        cases hq : S.toVec q with
        | some bytes' => simp [hp, hq] at hmark
        | none =>
            by_contra hne
            exact h ⟨hsame, (p, q), hmem, hp, hq, hne⟩

end

/-! ## Text and maps as parts -/

/-- A text of letters, or a map whose keys are pairs of numbers, which JSON has no
place for. -/
inductive Sample where
  | text (letters : List Char)
  | pairs (map : List ((UInt8 × UInt8) × UInt8))
  deriving DecidableEq

def letter (c : Char) : UInt8 := if c.isAlpha then UInt8.ofNat c.toNat else 63

def sample : Serde Sample where
  toVec
    | .text letters => some (34 :: letters.map letter ++ [34])
    | .pairs [] => some [123, 125]
    | .pairs _ => none
  typeName
    | .text _ => asciiBytes "str"
    | .pairs _ => asciiBytes "BTreeMap<(u8, u8), u8>"

theorem letter_ne_zero (c : Char) : letter c ≠ 0 := by
  unfold letter
  split
  · rename_i h
    have hrange : 65 ≤ c.toNat ∧ c.toNat ≤ 122 := by
      change (decide (65 ≤ c.val ∧ c.val ≤ 90) ||
        (decide (97 ≤ c.val) && decide (c.val ≤ 122))) = true at h
      simp only [Bool.or_eq_true, Bool.and_eq_true, decide_eq_true_eq,
        UInt32.le_iff_toNat_le] at h
      change 65 ≤ c.val.toNat ∧ c.val.toNat ≤ 122
      rcases h with ⟨h₁, h₂⟩ | ⟨h₁, h₂⟩
      · exact ⟨h₁, h₂.trans (by decide)⟩
      · exact ⟨le_trans (by decide) h₁, h₂⟩
    intro h0
    have hnat := congrArg UInt8.toNat h0
    rw [UInt8.toNat_ofNat'] at hnat
    change c.toNat % 256 = 0 at hnat
    omega
  · decide

theorem toVec_sample {p : Sample} {bytes : Bytes} (h : sample.toVec p = some bytes) :
    bytes.head? ≠ some 33 ∧ 0 ∉ bytes := by
  cases p with
  | text letters =>
      cases h
      refine ⟨by simp, ?_⟩
      simp only [List.cons_append, List.mem_cons, List.mem_append, List.mem_map,
        not_or, not_exists, not_and]
      exact ⟨by decide, fun c _ => letter_ne_zero c, by decide, by simp⟩
  | pairs map =>
      cases map with
      | nil =>
          cases h
          decide
      | cons e map => cases h

theorem typeName_sample (p : Sample) : 0 ∉ sample.typeName p := by
  cases p with
  | text letters =>
      change 0 ∉ asciiBytes "str"
      decide
  | pairs map =>
      change 0 ∉ asciiBytes "BTreeMap<(u8, u8), u8>"
      decide

/-- The keys of `ab`, `c` and of `a`, `bc` are told apart. -/
theorem same_key_alike_concatenated :
    ((ofParts sample [.text ['a', 'b'], .text ['c']]).hasher =
        (ofParts sample [.text ['a'], .text ['b', 'c']]).hasher →
      List.Forall₂ (Alike sample) [.text ['a', 'b'], .text ['c']]
        [.text ['a'], .text ['b', 'c']]) ∧
      (ofParts sample [.text ['a', 'b'], .text ['c']]).hasher ≠
        (ofParts sample [.text ['a'], .text ['b', 'c']]).hasher := by
  have halike := (same_key_alike_iff (fun p b h => (toVec_sample h).1)
    (fun p b h => (toVec_sample h).2) typeName_sample
    [.text ['a', 'b'], .text ['c']] [.text ['a'], .text ['b', 'c']]).mpr ?_
  · refine ⟨halike, fun hkey => ?_⟩
    have hab := halike hkey
    rw [List.forall₂_cons] at hab
    have hbytes : [34, 97, 98, 34] = ([34, 97, 34] : Bytes) := hab.1
    exact absurd hbytes (by decide)
  · rintro ⟨-, pq, hmem, hp, -⟩
    simp only [List.zip_cons_cons, List.zip_nil_right, List.mem_cons,
      List.not_mem_nil, or_false] at hmem
    rcases hmem with rfl | rfl
    · cases hp
    · cases hp

/-- The maps from `(1, 2)` to `3` and to `4` are one part to the key. -/
theorem not_same_key_alike :
    ¬ ∀ ps qs : List Sample, (ofParts sample ps).hasher = (ofParts sample qs).hasher →
      List.Forall₂ (Alike sample) ps qs := by
  intro h
  have heq : (ofParts sample [.pairs [((1, 2), 3)]]).hasher =
      (ofParts sample [.pairs [((1, 2), 4)]]).hasher := rfl
  have halike := h _ _ heq
  rw [List.forall₂_cons] at halike
  have hpair : Sample.pairs [((1, 2), 3)] = .pairs [((1, 2), 4)] := halike.1
  exact absurd hpair (by decide)

end KeyBuilder

end Memo

end RustSak
