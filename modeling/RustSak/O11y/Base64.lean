import RustSak.Library.Base64

/-!
# The base64 of the byte values of an export

`base64` writes each three bytes as one word of 24 bits, six bits a character.
Reading the text back gives the bytes, whatever their number.
-/

namespace RustSak

namespace O11y

open Library

/-- `bytes.chunks(3)`. -/
def chunks : List UInt8 → List (List UInt8)
  | [] => []
  | [a] => [[a]]
  | [a, b] => [[a, b]]
  | a :: b :: c :: rest => [a, b, c] :: chunks rest

/-- The bytes of a chunk in the high 24 bits of a word, the first the highest. -/
def block (chunk : List UInt8) : UInt32 :=
  chunk.zipIdx.foldl
    (fun block entry => block ||| entry.1.toUInt32 <<< (16 - 8 * entry.2).toUInt32) 0

def sextet (block : UInt32) (index : ℕ) : ℕ :=
  (block >>> (18 - 6 * index).toUInt32).toNat &&& 0x3f

theorem sextet_lt (block : UInt32) (index : ℕ) : sextet block index < 64 :=
  Nat.and_lt_two_pow _ (by decide : 0x3f < 2 ^ 6)

def place (block : UInt32) (index : ℕ) : Fin 64 := ⟨sextet block index, sextet_lt _ _⟩

def encodeChunk (chunk : List UInt8) : List Char :=
  (List.range (chunk.length + 1)).map (fun index => Base64.symbol (place (block chunk) index)) ++
  List.replicate (3 - chunk.length) Base64.pad

def base64 (bytes : List UInt8) : List Char := (chunks bytes).flatMap encodeChunk

theorem base64_cons (a b c : UInt8) (rest : List UInt8) :
    base64 (a :: b :: c :: rest) = encodeChunk [a, b, c] ++ base64 rest := by
  rw [base64, chunks, List.flatMap_cons]
  rfl

/-- The shifted bytes do not overlap. -/
theorem toNat_block (a b c : UInt8) :
    (block [a, b, c]).toNat = a.toNat * 65536 + b.toNat * 256 + c.toNat := by
  have ha := a.toNat_lt
  have hb := b.toNat_lt
  have hc := c.toNat_lt
  have hlow : b.toNat <<< 8 ||| c.toNat = b.toNat <<< 8 + c.toNat :=
    (Nat.shiftLeft_add_eq_or_of_lt hc b.toNat).symm
  have hhigh : a.toNat <<< 16 ||| (b.toNat <<< 8 + c.toNat) =
      a.toNat <<< 16 + (b.toNat <<< 8 + c.toNat) := by
    refine (Nat.shiftLeft_add_eq_or_of_lt ?_ a.toNat).symm
    rw [Nat.shiftLeft_eq]
    omega
  have hword : (block [a, b, c]).toNat =
      a.toNat <<< 16 % 4294967296 ||| b.toNat <<< 8 % 4294967296 ||| c.toNat := by
    simp [block, List.zipIdx]
  have hafits : a.toNat <<< 16 < 4294967296 := by
    rw [Nat.shiftLeft_eq]
    omega
  have hbfits : b.toNat <<< 8 < 4294967296 := by
    rw [Nat.shiftLeft_eq]
    omega
  rw [hword, Nat.mod_eq_of_lt hafits, Nat.mod_eq_of_lt hbfits, Nat.or_assoc, hlow, hhigh,
    Nat.shiftLeft_eq, Nat.shiftLeft_eq]
  omega

/-- A short chunk is one with zeros after it. -/
theorem block_two (a b : UInt8) : block [a, b] = block [a, b, 0] := by
  simp [block, List.zipIdx]

theorem block_one (a : UInt8) : block [a] = block [a, 0, 0] := by
  simp [block, List.zipIdx]

theorem val_place (word : UInt32) (index : ℕ) :
    (place word index).val = word.toNat / 2 ^ (18 - 6 * index) % 64 := by
  have hshift : (18 - 6 * index) % 32 = 18 - 6 * index := Nat.mod_eq_of_lt (by omega)
  have hmask : word.toNat >>> (18 - 6 * index) &&& 63 =
      word.toNat >>> (18 - 6 * index) % 64 :=
    Nat.and_two_pow_sub_one_eq_mod _ 6
  rw [← Nat.shiftRight_eq_div_pow, ← hmask]
  simp [place, sextet, hshift]

theorem length_encodeChunk {chunk : List UInt8} (h : chunk.length ≤ 3) :
    (encodeChunk chunk).length = 4 := by
  rw [encodeChunk, List.length_append, List.length_map, List.length_range,
    List.length_replicate]
  omega

theorem toBytes_three (a b c : UInt8) :
    BigEndian.toBytes 3 (a.toNat * 65536 + b.toNat * 256 + c.toNat) = [a, b, c] := by
  have ha := a.toNat_lt
  have hb := b.toNat_lt
  have hc := c.toNat_lt
  simp only [BigEndian.toBytes, List.cons.injEq, and_true, ← UInt8.toNat_inj,
    UInt8.toNat_ofNat']
  omega

theorem toBytes_two (a b : UInt8) :
    BigEndian.toBytes 2 (a.toNat * 256 + b.toNat) = [a, b] := by
  have ha := a.toNat_lt
  have hb := b.toNat_lt
  simp only [BigEndian.toBytes, List.cons.injEq, and_true, ← UInt8.toNat_inj,
    UInt8.toNat_ofNat']
  omega

theorem toBytes_one (a : UInt8) : BigEndian.toBytes 1 a.toNat = [a] := by
  have ha := a.toNat_lt
  simp only [BigEndian.toBytes, List.cons.injEq, and_true, ← UInt8.toNat_inj,
    UInt8.toNat_ofNat']
  omega

/-- Four places spell their word. -/
theorem places_eq {word : UInt32} (h : word.toNat < 16777216) :
    64 * (64 * (64 * (place word 0).val + (place word 1).val) + (place word 2).val) +
      (place word 3).val = word.toNat := by
  simp only [val_place]
  omega

/-- Three bytes come back before what the rest of the text spells. -/
theorem decode_encodeChunk (a b c : UInt8) (rest : List Char) :
    Base64.decode (encodeChunk [a, b, c] ++ rest) =
      (Base64.decode rest).map ([a, b, c] ++ ·) := by
  have hword := toNat_block a b c
  have hfits : (block [a, b, c]).toNat < 16777216 := by
    have ha := a.toNat_lt
    have hb := b.toNat_lt
    have hc := c.toNat_lt
    omega
  have hchunk : encodeChunk [a, b, c] ++ rest = Base64.symbol (place (block [a, b, c]) 0) ::
      Base64.symbol (place (block [a, b, c]) 1) ::
      Base64.symbol (place (block [a, b, c]) 2) ::
      Base64.symbol (place (block [a, b, c]) 3) :: rest := rfl
  rw [hchunk, Base64.decode_four, places_eq hfits, hword, toBytes_three]

theorem decode_encodeChunk_two (a b : UInt8) :
    Base64.decode (encodeChunk [a, b]) = some [a, b] := by
  have hword := toNat_block a b 0
  have hchunk : encodeChunk [a, b] = [Base64.symbol (place (block [a, b]) 0),
      Base64.symbol (place (block [a, b]) 1), Base64.symbol (place (block [a, b]) 2),
      Base64.pad] := rfl
  have hzero : (place (block [a, b]) 2).val % 4 = 0 := by
    rw [val_place, block_two, hword]
    simp
    omega
  have hnumber : 16 * (64 * (place (block [a, b]) 0).val + (place (block [a, b]) 1).val) +
      (place (block [a, b]) 2).val / 4 = a.toNat * 256 + b.toNat := by
    have ha := a.toNat_lt
    have hb := b.toNat_lt
    rw [val_place, val_place, val_place, block_two, hword]
    simp
    omega
  rw [hchunk, Base64.decode_three _ _ _ hzero, hnumber, toBytes_two]

theorem decode_encodeChunk_one (a : UInt8) :
    Base64.decode (encodeChunk [a]) = some [a] := by
  have hword := toNat_block a 0 0
  have hchunk : encodeChunk [a] = [Base64.symbol (place (block [a]) 0),
      Base64.symbol (place (block [a]) 1), Base64.pad, Base64.pad] := rfl
  have hzero : (place (block [a]) 1).val % 16 = 0 := by
    rw [val_place, block_one, hword]
    simp
    omega
  have hnumber : 4 * (place (block [a]) 0).val + (place (block [a]) 1).val / 16 =
      a.toNat := by
    have ha := a.toNat_lt
    rw [val_place, val_place, block_one, hword]
    simp
    omega
  rw [hchunk, Base64.decode_two _ _ hzero, hnumber, toBytes_one]

theorem base64_one (a : UInt8) : base64 [a] = encodeChunk [a] := List.append_nil _

theorem base64_two (a b : UInt8) : base64 [a, b] = encodeChunk [a, b] := List.append_nil _

theorem decode_base64 (bytes : List UInt8) :
    Base64.decode (base64 bytes) = some bytes := by
  induction bytes using chunks.induct with
  | case1 => rfl
  | case2 a => rw [base64_one, decode_encodeChunk_one]
  | case3 a b => rw [base64_two, decode_encodeChunk_two]
  | case4 a b c rest ih =>
      rw [base64_cons, decode_encodeChunk, ih]
      rfl

theorem length_base64 (bytes : List UInt8) :
    (base64 bytes).length = 4 * ((bytes.length + 2) / 3) := by
  induction bytes using chunks.induct with
  | case1 => rfl
  | case2 a =>
      have hlength : [a].length ≤ 3 := by simp
      rw [base64_one, length_encodeChunk hlength]
      simp
  | case3 a b =>
      have hlength : [a, b].length ≤ 3 := by simp
      rw [base64_two, length_encodeChunk hlength]
      simp
  | case4 a b c rest ih =>
      rw [base64_cons, List.length_append, ih, length_encodeChunk le_rfl]
      simp only [List.length_cons]
      omega

/-- A chunk is symbols and then paddings. -/
theorem encodeChunk_eq (chunk : List UInt8) : ∃ body,
    encodeChunk chunk = body ++ List.replicate (3 - chunk.length) Base64.pad ∧
    ∀ c ∈ body, c ∈ Base64.alphabet := by
  refine ⟨_, rfl, ?_⟩
  intro c hc
  obtain ⟨index, _, rfl⟩ := List.mem_map.mp hc
  exact Base64.symbol_mem _

theorem padding_add_three (n : ℕ) : Base64.padding (n + 3) = Base64.padding n := by
  rw [Base64.padding, Nat.add_mod_right, Base64.padding]

theorem base64_eq (bytes : List UInt8) : ∃ body,
    base64 bytes = body ++ List.replicate (Base64.padding bytes.length) Base64.pad ∧
    ∀ c ∈ body, c ∈ Base64.alphabet := by
  induction bytes using chunks.induct with
  | case1 => exact ⟨[], rfl, fun c hc => absurd hc List.not_mem_nil⟩
  | case2 a =>
      rw [base64_one]
      exact encodeChunk_eq [a]
  | case3 a b =>
      rw [base64_two]
      exact encodeChunk_eq [a, b]
  | case4 a b c rest ih =>
      obtain ⟨chunk, hchunk, hsymbols⟩ := encodeChunk_eq [a, b, c]
      obtain ⟨body, hbody, hmore⟩ := ih
      refine ⟨chunk ++ body, ?_, ?_⟩
      · have hlength : (a :: b :: c :: rest).length = rest.length + 3 := rfl
        rw [base64_cons, hbody, hlength, padding_add_three, hchunk]
        simp
      · intro d hd
        rcases List.mem_append.mp hd with hd | hd
        · exact hsymbols d hd
        · exact hmore d hd

/-- Standard base64: the bytes come back, four characters stand for each three bytes
begun, and only symbols and then the paddings of the length appear. -/
theorem base64_standard (bytes : List UInt8) :
    Base64.decode (base64 bytes) = some bytes ∧
    (base64 bytes).length = 4 * ((bytes.length + 2) / 3) ∧
    ∃ body, base64 bytes = body ++ List.replicate (Base64.padding bytes.length) Base64.pad ∧
      ∀ c ∈ body, c ∈ Base64.alphabet :=
  ⟨decode_base64 bytes, length_base64 bytes, base64_eq bytes⟩

example : base64 "fooba".toUTF8.toList = "Zm9vYmE=".toList := by decide +kernel

end O11y

end RustSak
