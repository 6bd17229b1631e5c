import RustSak.Library.BigEndian
import RustSak.O11y.Traceparent
import Mathlib.Logic.Function.Iterate

/-!
# Drawing identifiers

Each thread has a generator, seeded once with a word that is not zero. A step of it is three
shifts added to the state without carry, none of which leads to zero or leads two states to one;
what is drawn is the state times an odd constant. So no identifier is zero, the loops that draw
again never do, and identifiers repeat only when the generator has come back to where it began.
-/

namespace RustSak

namespace O11y

open Library

namespace Ids

abbrev Word := BitVec 64

/-! ## Shifts added without carry -/

section Shifts

variable {k : ℕ} {v : Word}

theorem eq_zero_of_shiftRight (hk : 0 < k) (h : v ^^^ (v >>> k) = 0#64) : v = 0#64 := by
  have heq : v = v >>> k := BitVec.xor_eq_zero_iff.mp h
  have hnat : v.toNat = v.toNat / 2 ^ k := by
    rw [← Nat.shiftRight_eq_div_pow, ← BitVec.toNat_ushiftRight, ← heq]
  by_contra hne
  have hpos : 0 < v.toNat := Nat.pos_of_ne_zero fun hzero => hne (BitVec.eq_of_toNat_eq hzero)
  have hlt := Nat.div_lt_self hpos (Nat.one_lt_two_pow hk.ne')
  omega

theorem eq_zero_of_shiftLeft (hk : 0 < k) (h : v ^^^ (v <<< k) = 0#64) : v = 0#64 := by
  have heq : v = v <<< k := BitVec.xor_eq_zero_iff.mp h
  have hbit : ∀ i, v.getLsbD i = false := by
    intro i
    induction i using Nat.strong_induction_on with
    | _ i ih =>
        rw [heq, BitVec.getLsbD_shiftLeft]
        by_cases hi : i < k
        · simp [hi]
        · rw [ih (i - k) (by omega), Bool.and_false]
  exact BitVec.eq_of_getLsbD_eq fun i _ => by rw [hbit, BitVec.getLsbD_zero]

/-- What adds to a word a linear image of it, and leads no other word to zero, is injective. -/
theorem xor_injective {shift : Word → Word}
    (hlinear : ∀ a b, shift (a ^^^ b) = shift a ^^^ shift b)
    (hzero : ∀ v, v ^^^ shift v = 0#64 → v = 0#64) :
    Function.Injective fun v => v ^^^ shift v := by
  intro a b h
  have hsum : (a ^^^ b) ^^^ shift (a ^^^ b) = (a ^^^ shift a) ^^^ (b ^^^ shift b) := by
    rw [hlinear]
    ac_rfl
  refine BitVec.xor_eq_zero_iff.mp (hzero _ ?_)
  rw [hsum]
  exact BitVec.xor_eq_zero_iff.mpr h

end Shifts

/-! ## The generator -/

def step (state : Word) : Word :=
  let value := state ^^^ (state >>> 12)
  let value := value ^^^ (value <<< 25)
  value ^^^ (value >>> 27)

def multiplier : Word := 0x2545F4914F6CDD1D#64

/-- What is drawn, and the state after it. -/
def next (state : Word) : Word × Word := (step state * multiplier, step state)

/-- Zero is the one state the generator cannot leave. -/
def seed (drawn : Word) : Word := if drawn = 0#64 then 0x9e3779b97f4a7c15#64 else drawn

theorem seed_ne_zero (drawn : Word) : seed drawn ≠ 0#64 := by
  rw [seed]
  split
  · decide
  · assumption

theorem step_injective : Function.Injective step := by
  have hright : ∀ k, 0 < k → Function.Injective fun v : Word => v ^^^ (v >>> k) :=
    fun k hk => xor_injective (fun a b => BitVec.ushiftRight_xor_distrib a b k)
      fun v => eq_zero_of_shiftRight hk
  have hleft : ∀ k, 0 < k → Function.Injective fun v : Word => v ^^^ (v <<< k) :=
    fun k hk => xor_injective (fun a b => BitVec.shiftLeft_xor_distrib a b k)
      fun v => eq_zero_of_shiftLeft hk
  exact (hright 27 (by decide)).comp ((hleft 25 (by decide)).comp (hright 12 (by decide)))

theorem step_ne_zero {state : Word} (h : state ≠ 0#64) : step state ≠ 0#64 :=
  fun hzero => h (step_injective (hzero.trans (by decide)))

/-- An odd constant has an inverse. -/
theorem mul_multiplier_injective : Function.Injective fun v : Word => v * multiplier := by
  have hinverse : multiplier * 0x59071d96d81ecd35#64 = 1#64 := by decide
  intro a b h
  have hback := congrArg (· * 0x59071d96d81ecd35#64) h
  simpa only [BitVec.mul_assoc, hinverse, BitVec.mul_one] using hback

theorem next_ne_zero {state : Word} (h : state ≠ 0#64) : (next state).1 ≠ 0#64 :=
  fun hzero => step_ne_zero h (mul_multiplier_injective (hzero.trans (by decide)))

theorem next_fst_inj {a b : Word} (h : (next a).1 = (next b).1) : a = b :=
  step_injective (mul_multiplier_injective h)

/-! ## Identifiers -/

/-- The bytes of a word, in the order of the machine. -/
def neBytes (little : Bool) (value : Word) : List UInt8 :=
  if little then (BigEndian.toBytes 8 value.toNat).reverse else BigEndian.toBytes 8 value.toNat

/-- The identifier of these bytes, which are written out first to last. -/
def ofBytes (n : ℕ) (bytes : List UInt8) : BitVec (8 * n) :=
  BitVec.ofNat (8 * n) (BigEndian.ofBytes bytes)

section Draws

variable (little : Bool)

/-- Turns of the loop, of which there may be no more than `fuel`. -/
def newTraceId : ℕ → Word → Option (TraceId × Word)
  | 0, _ => none
  | fuel + 1, state =>
      let first := next state
      let second := next first.2
      let bytes := neBytes little first.1 ++ neBytes little second.1
      if bytes = List.replicate 16 0 then newTraceId fuel second.2
      else some (ofBytes 16 bytes, second.2)

def newSpanId : ℕ → Word → Option (SpanId × Word)
  | 0, _ => none
  | fuel + 1, state =>
      let drawn := next state
      if drawn.1 = 0#64 then newSpanId fuel drawn.2
      else some (ofBytes 8 (neBytes little drawn.1), drawn.2)

/-- What a thread asks for. -/
inductive Call where
  | traceId
  | spanId

inductive Id where
  | trace (id : TraceId)
  | span (id : SpanId)
  deriving DecidableEq

def call (fuel : ℕ) (state : Word) : Call → Option (Id × Word)
  | .traceId => (newTraceId little fuel state).map fun drawn => (.trace drawn.1, drawn.2)
  | .spanId => (newSpanId little fuel state).map fun drawn => (.span drawn.1, drawn.2)

/-- The identifiers of the calls of one thread. -/
def drawn (fuel : ℕ) : Word → List Call → Option (List Id)
  | _, [] => some []
  | state, c :: calls => (call little fuel state c).bind fun result =>
      (drawn fuel result.2 calls).map (result.1 :: ·)

end Draws

/-- The words a call takes. -/
def Call.words : Call → ℕ
  | .traceId => 2
  | .spanId => 1

variable {little : Bool}

theorem length_neBytes (value : Word) : (neBytes little value).length = 8 := by
  rw [neBytes]
  split
  · rw [List.length_reverse, BigEndian.length_toBytes]
  · exact BigEndian.length_toBytes 8 _

theorem toBytes_inj {a b : Word}
    (h : BigEndian.toBytes 8 a.toNat = BigEndian.toBytes 8 b.toNat) : a = b := by
  have hbytes := congrArg BigEndian.ofBytes h
  rw [BigEndian.ofBytes_toBytes a.isLt, BigEndian.ofBytes_toBytes b.isLt] at hbytes
  exact BitVec.eq_of_toNat_eq hbytes

theorem neBytes_inj {a b : Word} (h : neBytes little a = neBytes little b) : a = b := by
  rw [neBytes, neBytes] at h
  split at h
  · exact toBytes_inj (List.reverse_injective h)
  · exact toBytes_inj h

theorem ofBytes_inj {n : ℕ} {as bs : List UInt8} (has : as.length = n) (hbs : bs.length = n)
    (h : ofBytes n as = ofBytes n bs) : as = bs := by
  have hnat := congrArg BitVec.toNat h
  have hpow : 2 ^ (8 * n) = 256 ^ n := by
    rw [pow_mul]
    rfl
  have hlt : ∀ cs : List UInt8, cs.length = n → BigEndian.ofBytes cs < 2 ^ (8 * n) := by
    intro cs hcs
    rw [hpow, ← hcs]
    exact BigEndian.ofBytes_lt cs
  rw [ofBytes, ofBytes, BitVec.toNat_ofNat, BitVec.toNat_ofNat, Nat.mod_eq_of_lt (hlt as has),
    Nat.mod_eq_of_lt (hlt bs hbs)] at hnat
  exact BigEndian.ofBytes_inj (has.trans hbs.symm) hnat

theorem neBytes_zero : neBytes little 0#64 = List.replicate 8 0 := by
  cases little with
  | true => decide
  | false => decide

theorem ofBytes_replicate (n : ℕ) : ofBytes n (List.replicate n 0) = 0 := by
  have hzero : BigEndian.ofBytes (List.replicate n 0) = 0 := by
    induction n with
    | zero => rfl
    | succ n ih => rw [List.replicate_succ, BigEndian.ofBytes, ih]; simp
  rw [ofBytes, hzero]
  rfl

/-! ## The loops end at their first turn -/

theorem newSpanId_eq {state : Word} (h : state ≠ 0#64) (fuel : ℕ) :
    newSpanId little (fuel + 1) state =
      some (ofBytes 8 (neBytes little (next state).1), step state) := by
  rw [newSpanId, if_neg (next_ne_zero h)]
  rfl

theorem newTraceId_eq {state : Word} (h : state ≠ 0#64) (fuel : ℕ) :
    newTraceId little (fuel + 1) state =
      some (ofBytes 16 (neBytes little (next state).1 ++ neBytes little (next (step state)).1),
        step (step state)) := by
  have hbytes : neBytes little (next state).1 ++ neBytes little (next (step state)).1 ≠
      List.replicate 16 0 := by
    intro hzero
    have hsplit : List.replicate 16 (0 : UInt8) = List.replicate 8 0 ++ List.replicate 8 0 := rfl
    rw [hsplit] at hzero
    have hfirst := (List.append_inj hzero (by rw [length_neBytes, List.length_replicate])).1
    exact next_ne_zero h (neBytes_inj (hfirst.trans neBytes_zero.symm))
  rw [newTraceId]
  exact if_neg hbytes

/-! ## The identifiers of a thread -/

/-- What a call comes to from this state. -/
def idOf (little : Bool) (state : Word) : Call → Id
  | .traceId =>
      .trace (ofBytes 16 (neBytes little (next state).1 ++ neBytes little (next (step state)).1))
  | .spanId => .span (ofBytes 8 (neBytes little (next state).1))

def words (calls : List Call) : ℕ := (calls.map Call.words).sum

/-- Neither identifier of the specification that means there is none. -/
def Id.Valid : Id → Prop
  | .trace id => id ≠ 0
  | .span id => id ≠ 0

variable {state : Word}

theorem call_eq (h : state ≠ 0#64) (fuel : ℕ) (c : Call) :
    call little (fuel + 1) state c = some (idOf little state c, step^[c.words] state) := by
  cases c with
  | traceId => rw [call, newTraceId_eq h]; rfl
  | spanId => rw [call, newSpanId_eq h]; rfl

theorem iterate_ne_zero (h : state ≠ 0#64) (n : ℕ) : step^[n] state ≠ 0#64 := by
  induction n with
  | zero => exact h
  | succ n ih =>
      rw [Function.iterate_succ_apply']
      exact step_ne_zero ih

theorem valid_idOf (h : state ≠ 0#64) (c : Call) : (idOf little state c).Valid := by
  have hword : neBytes little (next state).1 ≠ List.replicate 8 0 :=
    fun hzero => next_ne_zero h (neBytes_inj (hzero.trans neBytes_zero.symm))
  cases c with
  | traceId =>
      intro hzero
      have hbytes := ofBytes_inj (by rw [List.length_append, length_neBytes, length_neBytes])
        List.length_replicate (hzero.trans (ofBytes_replicate 16).symm)
      have hsplit : List.replicate 16 (0 : UInt8) = List.replicate 8 0 ++ List.replicate 8 0 := rfl
      rw [hsplit] at hbytes
      exact hword (List.append_inj hbytes (by rw [length_neBytes, List.length_replicate])).1
  | spanId =>
      intro hzero
      exact hword (ofBytes_inj (length_neBytes _) List.length_replicate
        (hzero.trans (ofBytes_replicate 8).symm))

/-- One identifier comes of one state. -/
theorem idOf_inj {state' : Word} {c c' : Call} (h : idOf little state c = idOf little state' c') :
    state = state' := by
  cases c with
  | traceId =>
      cases c' with
      | traceId =>
          have hbytes := ofBytes_inj (by rw [List.length_append, length_neBytes, length_neBytes])
            (by rw [List.length_append, length_neBytes, length_neBytes]) (Id.trace.inj h)
          exact next_fst_inj (neBytes_inj (List.append_inj hbytes
            (by rw [length_neBytes, length_neBytes])).1)
      | spanId => cases h
  | spanId =>
      cases c' with
      | traceId => cases h
      | spanId =>
          exact next_fst_inj (neBytes_inj (ofBytes_inj (length_neBytes _) (length_neBytes _)
            (Id.span.inj h)))

theorem words_pos (c : Call) : 0 < c.words := by
  cases c with
  | traceId => exact Nat.succ_pos 1
  | spanId => exact Nat.one_pos

/-- Every call gets its identifier, made of the state it came to. -/
theorem drawn_eq (h : state ≠ 0#64) (fuel : ℕ) (calls : List Call) :
    ∃ ids, drawn little (fuel + 1) state calls = some ids ∧ ∀ id ∈ ids,
      ∃ n c, n < words calls ∧ id = idOf little (step^[n] state) c := by
  induction calls generalizing state with
  | nil => exact ⟨[], rfl, nofun⟩
  | cons c calls ih =>
      obtain ⟨ids, hids, hfrom⟩ := ih (iterate_ne_zero h c.words)
      have hwords : words (c :: calls) = c.words + words calls := List.sum_cons
      refine ⟨idOf little state c :: ids, ?_, fun id hid => ?_⟩
      · rw [drawn, call_eq h, Option.bind_some, hids]
        rfl
      · rcases List.mem_cons.mp hid with heq | hid
        · exact ⟨0, c, by rw [hwords]; exact Nat.add_pos_left (words_pos c) _, heq⟩
        · obtain ⟨n, c', hn, heq⟩ := hfrom id hid
          refine ⟨n + c.words, c', by omega, ?_⟩
          rw [heq, Function.iterate_add_apply]

/-- As long as the generator does not come back to where it began, no two are the same. -/
theorem nodup_drawn (h : state ≠ 0#64) {fuel : ℕ} {calls : List Call}
    (hperiod : ∀ n, 0 < n → n < words calls → step^[n] state ≠ state) {ids : List Id}
    (hids : drawn little (fuel + 1) state calls = some ids) : ids.Nodup := by
  induction calls generalizing state ids with
  | nil =>
      cases hids
      exact List.nodup_nil
  | cons c calls ih =>
      have hnext := iterate_ne_zero h c.words
      have hwords : words (c :: calls) = c.words + words calls := List.sum_cons
      have hpos := words_pos c
      obtain ⟨rest, hrest, hfrom⟩ := @drawn_eq little _ hnext fuel calls
      rw [drawn, call_eq h, Option.bind_some, hrest] at hids
      cases hids
      refine List.nodup_cons.mpr ⟨fun hmem => ?_, ih hnext (fun n hn hlt hback => ?_) hrest⟩
      · obtain ⟨n, c', hn, heq⟩ := hfrom _ hmem
        rw [← Function.iterate_add_apply] at heq
        exact hperiod (n + c.words) (by omega) (by omega) (idOf_inj heq).symm
      · rw [← Function.iterate_add_apply, Nat.add_comm, Function.iterate_add_apply] at hback
        exact hperiod n hn (by omega) (step_injective.iterate c.words hback)

/-- Whatever a thread asks for, each call gets its identifier at the first turn of its loop, none
is zero, none repeats before the generator has come back to its seed, and a context made of them
is read back from the header it is sent in. -/
theorem drawn_valid {encode : (n : ℕ) → BitVec (8 * n) → List Char}
    {decodeToSlice : (n : ℕ) → List Char → Option (BitVec (8 * n))}
    (hex : Hex.Codec encode decodeToSlice) (little : Bool) (uuid : Word) (calls : List Call) :
    ∃ ids, drawn little 1 (seed uuid) calls = some ids ∧ (∀ id ∈ ids, id.Valid) ∧
      ((∀ n, 0 < n → n < words calls → step^[n] (seed uuid) ≠ seed uuid) → ids.Nodup) ∧
      ∀ traceId spanId, Id.trace traceId ∈ ids → Id.span spanId ∈ ids →
        SpanContext.fromTraceparent decodeToSlice
          (SpanContext.toTraceparent encode ⟨traceId, spanId⟩) = some ⟨traceId, spanId⟩ := by
  have hseed := seed_ne_zero uuid
  obtain ⟨ids, hids, hfrom⟩ := @drawn_eq little _ hseed 0 calls
  have hvalid : ∀ id ∈ ids, id.Valid := by
    intro id hid
    obtain ⟨n, c, _, rfl⟩ := hfrom id hid
    exact valid_idOf (iterate_ne_zero hseed n) c
  exact ⟨ids, hids, hvalid, fun hperiod => nodup_drawn hseed hperiod hids,
    fun traceId spanId htrace hspan => SpanContext.fromTraceparent_toTraceparent hex
      (hvalid _ htrace) (hvalid _ hspan)⟩

/-- A trace and its first two spans, from a seed that came out zero. -/
theorem drawn_valid_trace : ∃ ids,
    drawn true 1 (seed 0) [.traceId, .spanId, .spanId] = some ids ∧ ids.Nodup := by
  obtain ⟨ids, hids, _, hnodup, _⟩ :=
    drawn_valid Hex.codec true 0 [.traceId, .spanId, .spanId]
  refine ⟨ids, hids, hnodup fun n hpos hlt => ?_⟩
  have hthree : ∀ n < 4, 0 < n → step^[n] (seed 0) ≠ seed 0 := by decide
  exact hthree n hlt hpos

end Ids

end O11y

end RustSak
