/-
# What is written is read back

The bytes of a value are read from a buffer in which other bytes may come before and after them.  `Runs` says
what a deserializer makes of some bytes of the buffer, whatever stands around them, and `Reads` what it makes of
the bytes of a value: a value that is the same (`Ty.Same`), unless an array of bytes under a name of their own is
among what is read (`Ty.Copies`), which is a panic.  `Ty.reads` is the induction over types.
-/
import QuarkChain.Serialize.Reflect

namespace QuarkChain.Serialize

open Bytes Outcome

/-! ### What is asked of a value -/

def Ty.isByte : Ty → Bool
  | .uint8 _ => true
  | _ => false

/-- An eight-bit unsigned integer type that is not `byte` itself. -/
def Ty.isNamedByte : Ty → Bool
  | .uint8 named => named
  | _ => false

mutual
/-- **The same value:** equal, but for the fields that are left out, and with a pointer to the zero value
where a nil pointer is not marked as such. -/
def Ty.Same : (t : Ty) → Tags → t.Val → t.Val → Prop
  | .slice t, _, v, v' => List.Forall₂ (t.Same elemTags) v v'
  | .array _ t, _, v, v' => List.Forall₂ (t.Same elemTags) v.1 v'.1
  | .struct _ fs, _, v, v' => fs.Same v v'
  | .ptr t, ts, none, v' => if ts.nilOK then v' = none else ∃ z, v' = some z ∧ t.Same ts t.zero z
  | .ptr t, ts, some x, v' => ∃ y, v' = some y ∧ t.Same ts x y
  | _, _, v, v' => v' = v
def Fields.Same : (fs : Fields) → fs.Val → fs.Val → Prop
  | .nil, _, _ => True
  | .cons f t rest, v, v' =>
    match f.tags? t with
    | none => rest.Same v.2 v'.2
    | some tags => t.Same tags v.1 v'.1 ∧ rest.Same v.2 v'.2
end

mutual
/-- The values that have a serialization: the types are serializable, numbers and lengths fit, the lengths
of slices take one to four bytes, and the elements of slices take at least one. -/
def Ty.Fits : (t : Ty) → Tags → t.Val → Prop
  | .bigInt, _, (i : ℤ) => 0 ≤ i ∧ i < 2 ^ 2040
  | .string, _, (s : List UInt8) => s.length < 2 ^ 32
  | .slice t, ts, (vs : List t.Val) =>
    t.typeInfo = .ok () ∧ (1 ≤ ts.byteSizeOfSliceLen ∧ ts.byteSizeOfSliceLen ≤ 4) ∧
      vs.length < 256 ^ ts.byteSizeOfSliceLen.toNat ∧
      ∀ v ∈ vs, t.Fits elemTags v ∧ t.serialize elemTags v ≠ .ok []
  | .array _ t, _, vs => t.typeInfo = .ok () ∧ ∀ v ∈ vs.1, t.Fits elemTags v
  | .struct _ fs, _, v => (∃ fields, fs.structFields = .ok fields) ∧ fs.Fits v
  | .ptr t, ts, none => t.typeInfo = .ok () ∧ (ts.nilOK = false → t.Fits ts t.zero)
  | .ptr t, ts, some x => t.typeInfo = .ok () ∧ t.Fits ts x
  | .other, _, _ => False
  | _, _, _ => True
def Fields.Fits : (fs : Fields) → fs.Val → Prop
  | .nil, _ => True
  | .cons f t rest, v =>
    match f.tags? t with
    | none => rest.Fits v.2
    | some tags => t.Fits tags v.1 ∧ rest.Fits v.2
end

mutual
/-- Reading the value copies bytes into an array whose elements have a name of their own. -/
def Ty.Copies : (t : Ty) → Tags → t.Val → Prop
  | .slice t, _, (vs : List t.Val) => ∃ v ∈ vs, t.Copies elemTags v
  | .array _ t, _, vs => t.isNamedByte = true ∨ ∃ v ∈ vs.1, t.Copies elemTags v
  | .struct _ fs, _, v => fs.Copies v
  | .ptr t, ts, none => ts.nilOK = false ∧ t.Copies ts t.zero
  | .ptr t, ts, some x => t.Copies ts x
  | _, _, _ => False
def Fields.Copies : (fs : Fields) → fs.Val → Prop
  | .nil, _ => False
  | .cons f t rest, v =>
    match f.tags? t with
    | none => rest.Copies v.2
    | some tags => t.Copies tags v.1 ∨ rest.Copies v.2
end

/-- **What serialization is for.**  The value has a serialization, and whatever follows it, reading it into
any target gives the same value and leaves exactly what follows. -/
def RoundTrip (t : Ty) (ts : Tags) (v : t.Val) : Prop :=
  ∃ b, t.serialize ts v = .ok b ∧ ∀ (target : t.Val) (rest : List UInt8),
    ∃ v', t.deserialize ts target { data := b ++ rest } =
        .ok (v', { data := b ++ rest, position := b.length }) ∧ t.Same ts v v'

/-- What a deserializer makes of the bytes `b`, wherever they stand in the buffer. -/
def Runs {α : Type} (d : Reader α) (b : List UInt8) (out : Except ReadStop α) : Prop :=
  ∀ before rest, d { data := before ++ (b ++ rest), position := before.length } =
    out.map fun r => (r, { data := before ++ (b ++ rest), position := before.length + b.length })

variable {n k : ℕ} {tags : Tags} {named : Bool} {size : ℤ}

section Runs

variable {α β : Type} {d : Reader α} {b b' : List UInt8} {f : α → Reader β}

theorem runs_pure (a : α) : Runs (pure a : Reader α) [] (.ok a) := fun _ _ => rfl

theorem Runs.bind {a : α} {out : Except ReadStop β} (h : Runs d b (.ok a)) (h' : Runs (f a) b' out) :
    Runs (d >>= f) (b ++ b') out := by
  intro before rest
  have hfirst := h before (b' ++ rest)
  have hthen := h' (before ++ b) rest
  simp only [List.append_assoc, List.length_append, ← Nat.add_assoc] at hfirst hthen ⊢
  change (d _ >>= fun p => f p.1 p.2) = _
  rw [hfirst]
  exact hthen

theorem Runs.bind_error {s : ReadStop} (h : Runs d b (.error s)) : Runs (d >>= f) (b ++ b') (.error s) := by
  intro before rest
  have hfirst := h before (b' ++ rest)
  change (d _ >>= fun p => f p.1 p.2) = _
  rw [List.append_assoc, hfirst]
  rfl

theorem Runs.map {out : Except ReadStop α} (h : Runs d b out) (g : α → β) : Runs (g <$> d) b (out.map g) := by
  intro before rest
  have hd := h before rest
  change (d _ >>= fun p => pure (g p.1, p.2)) = _
  rw [hd]
  cases out with
  | error s => rfl
  | ok a => rfl

theorem Runs.field {out : Except ReadStop α} (h : Runs d b out) (hout : ∀ e, out ≠ .error (.deser e))
    (typ name : String) : Runs (Reader.field typ name d) b out := by
  intro before rest
  rw [Reader.field, h before rest]
  cases out with
  | ok a => rfl
  | error s =>
    cases s with
    | deser e => exact absurd rfl (hout e)
    | reflectCopy => rfl

theorem buffer_map {d : Deserializer α} (g : α → β) : Reader.buffer (g <$> d) = g <$> Reader.buffer d := by
  funext bb
  change (d bb >>= fun p => pure (g p.1, p.2)).mapError _ = ((d bb).mapError _ >>= fun p => pure (g p.1, p.2))
  cases d bb with
  | error s => rfl
  | ok p => rfl

theorem buffer_bind {d : Deserializer α} {g : α → Deserializer β} :
    Reader.buffer (d >>= g) = Reader.buffer d >>= fun a => Reader.buffer (g a) := by
  funext bb
  change (d bb >>= fun p => g p.1 p.2).mapError _ = ((d bb).mapError _ >>= fun p => (g p.1 p.2).mapError _)
  cases d bb with
  | error s => rfl
  | ok p => rfl

theorem getBytes_append (before b rest : List UInt8) :
    getBytes b.length { data := before ++ (b ++ rest), position := before.length } =
      .ok (b, { data := before ++ (b ++ rest), position := before.length + b.length }) := by
  have henough : ¬ ((b.length : ℤ) > (before ++ (b ++ rest)).length - before.length) := by
    simp only [List.length_append]
    omega
  have hslice : slice (before ++ (b ++ rest)) before.length (before.length + b.length) = .ok b := by
    rw [slice, if_pos (by simp)]
    simp
  rw [getBytes, if_neg henough, hslice]
  rfl

theorem runs_getBytes (b : List UInt8) : Runs (Reader.buffer (getBytes b.length)) b (.ok b) := by
  intro before rest
  rw [Reader.buffer, getBytes_append]
  rfl

theorem getUInt_append (h : n < 256 ^ k) (before rest : List UInt8) :
    getUInt k { data := before ++ (toBE k n ++ rest), position := before.length } =
      .ok (n, { data := before ++ (toBE k n ++ rest), position := before.length + k }) := by
  have hval : bigEndian (toBE k n) = n := (ofBE_toBE k n).trans (Nat.mod_eq_of_lt h)
  have hbytes := getBytes_append before (toBE k n) rest
  rw [length_toBE] at hbytes
  change (getBytes k _ >>= fun p => pure (bigEndian p.1, p.2)) = _
  rw [hbytes]
  change Except.ok (bigEndian (toBE k n), _) = _
  rw [hval]

theorem runs_getUInt (h : n < 256 ^ k) : Runs (Reader.buffer (getUInt k)) (toBE k n) (.ok n) := by
  intro before rest
  rw [Reader.buffer, getUInt_append h, length_toBE]
  rfl

variable (hk : 1 ≤ k ∧ k ≤ 4)
include hk

theorem getLen_append (h : n < 256 ^ k) (before rest : List UInt8) (hrest : n ≤ rest.length) :
    getLen k { data := before ++ (toBE k n ++ rest), position := before.length } =
      .ok (n, { data := before ++ (toBE k n ++ rest), position := before.length + k }) := by
  rw [getLen, if_neg (by omega), if_neg (by omega)]
  change (getUInt k _ >>= _) = _
  rw [getUInt_append h]
  have hremaining : ¬ n > (before ++ (toBE k n ++ rest)).length - (before.length + k) := by
    simp only [List.length_append, length_toBE]
    omega
  change (if _ then _ else _ : Deserializer ℕ) _ = _
  rw [if_neg hremaining]
  rfl

theorem Runs.getLen_bind {f : ℕ → Reader β} {out : Except ReadStop β}
    (hn : n < 256 ^ k) (hlen : n ≤ b.length) (h : Runs (f n) b out) :
    Runs (Reader.buffer (getLen k) >>= f) (toBE k n ++ b) out := by
  intro before rest
  have hthen := h (before ++ toBE k n) rest
  simp only [List.append_assoc, List.length_append, length_toBE, ← Nat.add_assoc] at hthen ⊢
  change ((getLen k _).mapError _ >>= fun p => f p.1 p.2) = _
  rw [getLen_append hk hn before (b ++ rest) (by rw [List.length_append]; omega)]
  exact hthen

theorem runs_getVarBytes (b : List UInt8) (hb : b.length < 256 ^ k) :
    Runs (Reader.buffer (getVarBytes k)) (toBE k b.length ++ b) (.ok b) := by
  rw [getVarBytes, buffer_bind]
  exact Runs.getLen_bind hk hb le_rfl (runs_getBytes b)

end Runs

/-- What a deserializer makes of the bytes of a value: the panic of `reflect.Copy` if a copy of named bytes
is among what is read, and otherwise a value as asked. -/
structure Reads {α : Type} (d : Reader α) (b : List UInt8) (copies : Prop) (same : α → Prop) : Prop where
  stops : copies → Runs d b (.error .reflectCopy)
  gives : ¬ copies → ∃ r, Runs d b (.ok r) ∧ same r

namespace Reads

variable {α β : Type} {d : Reader α} {b b' : List UInt8} {copies copies' : Prop} {same : α → Prop}
  {same' : β → Prop} {f : α → Reader β}

theorem of_runs {a : α} (h : Runs d b (.ok a)) (hsame : same a) : Reads d b False same :=
  ⟨False.elim, fun _ => ⟨a, h, hsame⟩⟩

theorem of_eq {d' : Reader α} (hd : d = d') (hc : copies ↔ copies') (h : Reads d' b copies' same) :
    Reads d b copies same := by
  rwa [hd, propext hc]

theorem map (h : Reads d b copies same) {g : α → β} (hg : ∀ a, same a → same' (g a)) :
    Reads (g <$> d) b copies same' where
  stops hc := (h.stops hc).map g
  gives hc := by
    obtain ⟨a, hruns, ha⟩ := h.gives hc
    exact ⟨g a, hruns.map g, hg a ha⟩

theorem bind (h : Reads d b copies same) (h' : ∀ a, same a → Reads (f a) b' copies' same') :
    Reads (d >>= f) (b ++ b') (copies ∨ copies') same' := by
  by_cases hc : copies
  · exact ⟨fun _ => (h.stops hc).bind_error, fun hnot => absurd (.inl hc) hnot⟩
  obtain ⟨a, hruns, ha⟩ := h.gives hc
  constructor
  · intro hor
    exact hruns.bind ((h' a ha).stops (hor.resolve_left hc))
  · intro hnot
    obtain ⟨r, hruns', hr⟩ := (h' a ha).gives fun hc' => hnot (.inr hc')
    exact ⟨r, hruns.bind hruns', hr⟩

theorem field (h : Reads d b copies same) (typ name : String) :
    Reads (Reader.field typ name d) b copies same where
  stops hc := (h.stops hc).field (by simp) typ name
  gives hc := by
    obtain ⟨a, hruns, ha⟩ := h.gives hc
    exact ⟨a, hruns.field (by simp) typ name, ha⟩

end Reads

theorem reads_elems {α : Type} {ser : α → Serialized} {de : α → Reader α} {copies : α → Prop}
    {same : α → α → Prop} {vs : List α}
    (h : ∀ v ∈ vs, ∃ b, ser v = .ok b ∧ ∀ target, Reads (de target) b (copies v) (same v)) :
    ∃ b, serializeElems ser vs = .ok b ∧ ((∀ v ∈ vs, ser v ≠ .ok []) → vs.length ≤ b.length) ∧
      ∀ targets : List α, targets.length = vs.length →
        Reads (deserializeInto de targets) b (∃ v ∈ vs, copies v) (List.Forall₂ same vs) := by
  induction vs with
  | nil =>
    refine ⟨[], rfl, fun _ => le_rfl, fun targets hlen => ?_⟩
    obtain rfl := List.length_eq_zero_iff.mp hlen
    simpa [deserializeInto] using Reads.of_runs (runs_pure []) List.Forall₂.nil
  | cons v vs ih =>
    obtain ⟨hv, hvs⟩ := List.forall_mem_cons.mp h
    obtain ⟨b, hser, hread⟩ := hv
    obtain ⟨bs, hsers, hlen, hreads⟩ := ih hvs
    refine ⟨b ++ bs, ?_, ?_, ?_⟩
    · simp [serializeElems, hser, hsers, bind, Except.bind]
    · intro hne
      obtain ⟨hb, hbs⟩ := List.forall_mem_cons.mp hne
      have hpos : 0 < b.length := List.length_pos_iff.mpr fun hnil => hb (by rw [hser, hnil])
      have hle := hlen hbs
      simp only [List.length_cons, List.length_append]
      omega
    · intro targets htargets
      obtain ⟨target, targets, rfl⟩ := List.exists_cons_of_length_eq_add_one htargets
      have hrest := hreads targets (Nat.succ.inj htargets)
      rw [deserializeInto, List.exists_mem_cons_iff]
      refine (hread target).bind fun a ha => ?_
      refine hrest.map fun as has => ?_
      exact .cons ha has

/-! ### Kinds of types -/

def Ty.ReadsBack (t : Ty) (ts : Tags) (v : t.Val) : Prop :=
  ∃ b, t.serialize ts v = .ok b ∧
    ∀ target, Reads (t.deserialize ts target) b (t.Copies ts v) (t.Same ts v)

def Fields.ReadsBack (fs : Fields) (v : fs.Val) : Prop :=
  ∃ b, fs.serialize v = .ok b ∧
    ∀ name target, Reads (fs.deserialize name target) b (fs.Copies v) (fs.Same v)

theorem width_lt (h : n < 2 ^ 2040) : width n < 256 := by
  rw [show 2040 = 8 * 255 from rfl] at h
  exact Nat.lt_succ_of_le (width_le h)

theorem serializeBigInt_natCast (h : n < 2 ^ 2040) :
    (minBE n).length < 256 ^ 1 ∧ serializeBigInt n = .ok (toBE 1 (minBE n).length ++ minBE n) := by
  have hbytes : (if (0 : ℤ) < n then minBE (n : ℤ).natAbs else []) = minBE n := by
    cases n with
    | zero => rfl
    | succ n => rw [if_pos (by omega), Int.natAbs_natCast]
  have hlen : (minBE n).length < 256 ^ 1 := by
    rw [minBE, length_toBE]
    exact width_lt h
  have hone : toBE 1 (minBE n).length = [UInt8.ofNat (minBE n).length] := by
    rw [pow_one] at hlen
    rw [toBE, Nat.mod_eq_of_lt hlen]
    rfl
  refine ⟨hlen, ?_⟩
  rw [serializeBigInt, if_neg (by omega), hbytes, hone]
  rfl

theorem runs_bigInt (h : n < 2 ^ 2040) :
    ∃ b, serializeBigInt n = .ok b ∧ ∃ bytes, bigEndian bytes = n ∧
      Runs (Reader.buffer (getVarBytes 1)) b (.ok bytes) := by
  obtain ⟨hlen, hser⟩ := serializeBigInt_natCast h
  exact ⟨_, hser, minBE n, ofBE_minBE n, runs_getVarBytes (by decide) _ hlen⟩

theorem runs_getByte (b : UInt8) : Runs (Reader.buffer (getUInt 1)) [b] (.ok b.toNat) := by
  have hbyte : toBE 1 b.toNat = [b] := by
    have hmod : b.toNat % 256 = b.toNat := Nat.mod_eq_of_lt b.toNat_lt
    simp [toBE, hmod]
  exact hbyte ▸ runs_getUInt (k := 1) b.toNat_lt

theorem readsBack_uint8 (named : Bool) (ts : Tags) (v : UInt8) : (Ty.uint8 named).ReadsBack ts v := by
  refine ⟨[v], rfl, fun target => ?_⟩
  have hruns := (runs_getByte v).map UInt8.ofNat
  exact Reads.of_runs hruns (UInt8.ofNat_toNat : UInt8.ofNat v.toNat = v)

theorem readsBack_uintN (kind : UintKind) (ts : Tags) (v : BitVec (8 * kind.bytes)) :
    (Ty.uintN kind).ReadsBack ts v := by
  refine ⟨toBE kind.bytes v.toNat, rfl, fun target => ?_⟩
  have hlt : v.toNat < 256 ^ kind.bytes := by
    rw [show (256 : ℕ) = 2 ^ 8 from rfl, ← pow_mul]
    exact v.isLt
  have hruns := (runs_getUInt hlt).map (BitVec.ofNat (8 * kind.bytes))
  exact Reads.of_runs hruns (by simp : BitVec.ofNat (8 * kind.bytes) v.toNat = v)

theorem readsBack_uint (ts : Tags) (v : UInt64) : Ty.uint.ReadsBack ts v := by
  have hpow : 2 ^ 64 ≤ 2 ^ 2040 := by gcongr <;> decide
  obtain ⟨b, hser, bytes, hval, hruns⟩ := runs_bigInt (v.toNat_lt.trans_le hpow)
  have hread : UInt64.ofNat (bigEndian bytes) = v := by rw [hval, UInt64.ofNat_toNat]
  exact ⟨b, hser, fun target =>
    Reads.of_runs (hruns.map fun bytes => UInt64.ofNat (bigEndian bytes)) hread⟩

theorem readsBack_bool (ts : Tags) (v : Bool) : Ty.bool.ReadsBack ts v := by
  refine ⟨[if v then 1 else 0], rfl, fun target => ?_⟩
  have hread : Runs deserializeBool ([if v then 1 else 0] ++ []) (.ok v) := by
    refine (runs_getBytes [if v then 1 else 0]).bind ?_
    cases v with
    | false => exact runs_pure false
    | true => exact runs_pure true
  exact Reads.of_runs hread rfl

theorem readsBack_bigInt {ts : Tags} {v : ℤ} (h : Ty.bigInt.Fits ts v) : Ty.bigInt.ReadsBack ts v := by
  obtain ⟨hpos, hlt⟩ : 0 ≤ v ∧ v < 2 ^ 2040 := h
  obtain ⟨n, rfl⟩ := Int.eq_ofNat_of_zero_le hpos
  obtain ⟨b, hser, bytes, hval, hruns⟩ := runs_bigInt (n := n) (by exact_mod_cast hlt)
  refine ⟨b, hser, fun target => ?_⟩
  have hbig : Runs (Reader.buffer deserializeBigInt) b (.ok n) := by
    rw [deserializeBigInt, buffer_map, ← hval]
    exact hruns.map bigEndian
  exact Reads.of_runs (hbig.map Int.ofNat) rfl

theorem readsBack_string {ts : Tags} {v : List UInt8} (h : Ty.string.Fits ts v) : Ty.string.ReadsBack ts v :=
  ⟨toBE 4 v.length ++ v, rfl, fun _ => Reads.of_runs (runs_getVarBytes (by decide) v h) rfl⟩

theorem writeListLen_ok {len : ℕ} (hsize : 1 ≤ size ∧ size ≤ 4) (hlen : len < 256 ^ size.toNat) :
    writeListLen len size = .ok (toBE size.toNat len) := by
  rw [writeListLen, if_neg (by omega), if_neg]
  rw [Nat.div_eq_of_lt hlen]
  exact lt_irrefl 0

theorem toNat_size (hsize : 1 ≤ size ∧ size ≤ 4) : 1 ≤ size.toNat ∧ size.toNat ≤ 4 := by
  omega

theorem forall₂_byte (named : Bool) (bytes : List UInt8) :
    List.Forall₂ ((Ty.uint8 named).Same elemTags) bytes bytes := by
  induction bytes with
  | nil => exact .nil
  | cons x bytes ih => exact .cons rfl ih

theorem not_copies_byte (named : Bool) (bytes : List UInt8) :
    ¬ ∃ v ∈ bytes, (Ty.uint8 named).Copies elemTags v := by
  rintro ⟨v, -, hv⟩
  exact hv

theorem readsBack_byteSlice {ts : Tags} {bytes : List UInt8}
    (h : (Ty.slice (.uint8 named)).Fits ts bytes) : (Ty.slice (.uint8 named)).ReadsBack ts bytes := by
  obtain ⟨-, hsize, hlen, -⟩ := h
  refine ⟨toBE ts.byteSizeOfSliceLen.toNat bytes.length ++ bytes, ?_, fun target => ?_⟩
  · exact bind_eq_ok.mpr ⟨_, writeListLen_ok hsize hlen, rfl⟩
  · refine ⟨fun hc => absurd hc (not_copies_byte named bytes), fun _ => ⟨bytes, ?_, ?_⟩⟩
    · exact runs_getVarBytes (toNat_size hsize) bytes hlen
    · exact forall₂_byte named bytes

theorem asArray_val {α : Type} (old : { l : List α // l.length = n }) {l : List α}
    (h : l.length = n) : (asArray old l).1 = l := by
  rw [asArray, dif_pos h]

theorem readsBack_byteArray {ts : Tags}
    (bytes : { l : List UInt8 // l.length = n }) :
    (Ty.array n (.uint8 named)).ReadsBack ts bytes := by
  refine ⟨bytes.1, rfl, fun target => ?_⟩
  have hlen : target.1.length = bytes.1.length := target.2.trans bytes.2.symm
  have hget : Runs (Reader.buffer (getBytes target.1.length)) bytes.1 (.ok bytes.1) := by
    rw [hlen]
    exact runs_getBytes bytes.1
  have hfirst : Reads (Reader.buffer (getBytes target.1.length)) bytes.1 False (· = bytes.1) :=
    Reads.of_runs hget rfl
  have hread : Reads (deserializeBytes named target.1.length) (bytes.1 ++ [])
      (False ∨ named = true) (· = bytes.1) := by
    refine hfirst.bind fun r hr => ?_
    obtain rfl : r = bytes.1 := hr
    cases named with
    | false => exact ⟨fun h => absurd h (by decide), fun _ => ⟨_, runs_pure _, rfl⟩⟩
    | true => exact ⟨fun _ _ _ => rfl, fun h => absurd rfl h⟩
  rw [List.append_nil, false_or] at hread
  have hcopies : (Ty.array n (.uint8 named)).Copies ts bytes ↔ named = true :=
    or_iff_left (not_copies_byte named bytes.1)
  rw [hcopies]
  refine hread.map fun r hr => ?_
  obtain rfl : r = bytes.1 := hr
  have hval := asArray_val target bytes.2
  exact Eq.subst (motive := List.Forall₂ ((Ty.uint8 named).Same elemTags) bytes.1) hval.symm
    (forall₂_byte named bytes.1)

section Lists

variable {t : Ty} {ts : Tags}

variable (h : t.isByte = false)
include h

theorem serializeSlice_eq (elem : t.Val → Serialized) (ts : Tags) (vs : List t.Val) :
    serializeSlice t elem ts vs = (do
      t.typeInfo.mapError .typ
      let len ← writeListLen vs.length ts.byteSizeOfSliceLen
      let rest ← serializeElems elem vs
      .ok (len ++ rest)) := by
  cases t with
  | uint8 named => exact absurd h (by simp [Ty.isByte])
  | _ => rfl

theorem deserializeSlice_eq (elem : t.Val → Reader t.Val) (ts : Tags) (target : List t.Val) :
    deserializeSlice t elem ts target = (do
      Reader.ofTypeInfo t.typeInfo
      let vlen ← Reader.buffer (getLen ts.byteSizeOfSliceLen.toNat)
      deserializeInto elem (newSlice t.zero vlen target)) := by
  cases t with
  | uint8 named => exact absurd h (by simp [Ty.isByte])
  | _ => rfl

theorem serializeArray_eq (elem : t.Val → Serialized) (vs : List t.Val) :
    serializeArray t elem vs = (do
      t.typeInfo.mapError .typ
      serializeElems elem vs) := by
  cases t with
  | uint8 named => exact absurd h (by simp [Ty.isByte])
  | _ => rfl

theorem deserializeArray_eq (elem : t.Val → Reader t.Val) (target : List t.Val) :
    deserializeArray t elem target = (do
      Reader.ofTypeInfo t.typeInfo
      deserializeInto elem target) := by
  cases t with
  | uint8 named => exact absurd h (by simp [Ty.isByte])
  | _ => rfl

omit h

theorem deserialize_slice (hbyte : t.isByte = false) (htype : t.typeInfo = .ok ())
    {target : List t.Val} :
    (Ty.slice t).deserialize ts target = Reader.buffer (getLen ts.byteSizeOfSliceLen.toNat) >>= fun vlen =>
      deserializeInto (t.deserialize elemTags) (newSlice t.zero vlen target) := by
  refine (deserializeSlice_eq hbyte _ ts target).trans ?_
  rw [htype]
  rfl

theorem deserialize_array (hbyte : t.isByte = false) (htype : t.typeInfo = .ok ())
    {target : (Ty.array n t).Val} :
    (Ty.array n t).deserialize ts target =
      asArray target <$> deserializeInto (t.deserialize elemTags) target.1 := by
  refine congrArg (asArray target <$> ·) ((deserializeArray_eq hbyte _ target.1).trans ?_)
  rw [htype]
  rfl

theorem length_newSlice {α : Type} (zero : α) (vlen : ℕ) (old : List α) :
    (newSlice zero vlen old).length = vlen := by
  simp only [newSlice, List.length_append, List.length_take, List.length_replicate]
  omega

theorem readsBack_list (hbyte : t.isByte = false) {vs : List t.Val}
    (h : (Ty.slice t).Fits ts vs) (helem : ∀ v ∈ vs, t.ReadsBack elemTags v) :
    (Ty.slice t).ReadsBack ts vs := by
  obtain ⟨htype, hsize, hlen, hvs⟩ := h
  obtain ⟨b, hser, hle, hreads⟩ := reads_elems helem
  have hleb : vs.length ≤ b.length := hle fun v hv => (hvs v hv).2
  refine ⟨toBE ts.byteSizeOfSliceLen.toNat vs.length ++ b, ?_, fun target => ?_⟩
  · refine (serializeSlice_eq hbyte _ ts vs).trans ?_
    rw [htype, writeListLen_ok hsize hlen, hser]
    rfl
  · have helems := hreads _ (length_newSlice t.zero vs.length target)
    refine Reads.of_eq (deserialize_slice hbyte htype) Iff.rfl ?_
    constructor
    · intro hc
      exact (helems.stops hc).getLen_bind (toNat_size hsize) hlen hleb
    · intro hc
      obtain ⟨r, hruns, hr⟩ := helems.gives hc
      exact ⟨r, hruns.getLen_bind (toNat_size hsize) hlen hleb, hr⟩

theorem readsBack_array (hbyte : t.isByte = false) {vs : (Ty.array n t).Val}
    (h : (Ty.array n t).Fits ts vs) (helem : ∀ v ∈ vs.1, t.ReadsBack elemTags v) :
    (Ty.array n t).ReadsBack ts vs := by
  obtain ⟨htype, -⟩ := h
  obtain ⟨b, hser, -, hreads⟩ := reads_elems helem
  refine ⟨b, ?_, fun target => ?_⟩
  · refine (serializeArray_eq hbyte _ vs.1).trans ?_
    rw [htype, hser]
    rfl
  · have hcopies : (Ty.array n t).Copies ts vs ↔ ∃ v ∈ vs.1, t.Copies elemTags v := by
      refine or_iff_right ?_
      cases t with
      | uint8 named => exact absurd hbyte (by simp [Ty.isByte])
      | _ => simp [Ty.isNamedByte]
    rw [deserialize_array hbyte htype, hcopies]
    refine (hreads target.1 (target.2.trans vs.2.symm)).map fun r hr => ?_
    have hval := asArray_val target (hr.length_eq.symm.trans vs.2)
    exact Eq.subst (motive := List.Forall₂ (t.Same elemTags) vs.1) hval.symm hr

end Lists

theorem readsBack_struct {name : String} {fs : Fields} {ts : Tags} {v : fs.Val}
    (h : (Ty.struct name fs).Fits ts v) (hfs : fs.ReadsBack v) : (Ty.struct name fs).ReadsBack ts v := by
  obtain ⟨⟨fields, hfields⟩, -⟩ := h
  obtain ⟨b, hser, hread⟩ := hfs
  refine ⟨b, ?_, fun target => ?_⟩
  · change (fs.structFields.mapError SerError.typ >>= fun _ => fs.serialize v) = _
    rw [hfields]
    exact hser
  · change Reads (Reader.ofTypeInfo fs.structFields >>= fun _ => fs.deserialize name target) _ _ _
    rw [hfields]
    exact hread name target

section Pointers

variable {t : Ty} {ts : Tags}

theorem deserialize_ptr (htype : t.typeInfo = .ok ()) (hnil : ts.nilOK = false) (target : Option t.Val) :
    (Ty.ptr t).deserialize ts target = some <$> t.deserialize ts (target.getD t.zero) := by
  simp only [Ty.deserialize, htype, hnil]
  rfl

theorem deserialize_ptr_nilOK (htype : t.typeInfo = .ok ()) (hnil : ts.nilOK = true)
    (target : Option t.Val) :
    (Ty.ptr t).deserialize ts target =
      ((· == 0) <$> Reader.buffer (getUInt 1)) >>= fun isNil =>
        if isNil then pure none else some <$> t.deserialize ts (target.getD t.zero) := by
  simp only [Ty.deserialize, htype, hnil]
  rfl

theorem runs_mark (b : UInt8) : Runs ((· == 0) <$> Reader.buffer (getUInt 1)) [b] (.ok (b.toNat == 0)) :=
  (runs_getByte b).map (· == 0)

theorem readsBack_some {x : t.Val} (htype : t.typeInfo = .ok ()) (hx : t.ReadsBack ts x) :
    (Ty.ptr t).ReadsBack ts (some x) := by
  obtain ⟨b, hser, hread⟩ := hx
  have hsame : ∀ y, t.Same ts x y → (Ty.ptr t).Same ts (some x) (some y) := fun y hy => ⟨y, rfl, hy⟩
  have hcopies : (Ty.ptr t).Copies ts (some x) ↔ False ∨ t.Copies ts x := ⟨.inr, fun h => h.resolve_left id⟩
  cases hnil : ts.nilOK with
  | false =>
    refine ⟨b, ?_, fun target => ?_⟩
    · simp [Ty.serialize, htype, hser, hnil, bind, Except.bind]
    · exact Reads.of_eq (deserialize_ptr htype hnil target) Iff.rfl ((hread _).map hsame)
  | true =>
    refine ⟨[1] ++ b, ?_, fun target => ?_⟩
    · simp [Ty.serialize, htype, hser, hnil, bind, Except.bind]
    · refine Reads.of_eq (deserialize_ptr_nilOK htype hnil target) hcopies ?_
      have hmark : Reads ((· == 0) <$> Reader.buffer (getUInt 1)) [1] False (· = false) :=
        Reads.of_runs (runs_mark 1) rfl
      refine hmark.bind fun isNil hfalse => ?_
      rw [hfalse]
      exact (hread _).map hsame

theorem readsBack_none (htype : t.typeInfo = .ok ())
    (hzero : ts.nilOK = false → t.ReadsBack ts t.zero) : (Ty.ptr t).ReadsBack ts none := by
  cases hnil : ts.nilOK with
  | false =>
    obtain ⟨b, hser, hread⟩ := hzero hnil
    have hsame : ∀ z, t.Same ts t.zero z → (Ty.ptr t).Same ts none (some z) := by
      intro z hz
      change if ts.nilOK = true then _ else _
      rw [hnil]
      exact ⟨z, rfl, hz⟩
    have hcopies : (Ty.ptr t).Copies ts none ↔ t.Copies ts t.zero := and_iff_right hnil
    refine ⟨b, ?_, fun target => ?_⟩
    · simp [Ty.serialize, htype, hser, hnil, bind, Except.bind]
    · exact Reads.of_eq (deserialize_ptr htype hnil target) hcopies ((hread _).map hsame)
  | true =>
    have hcopies : ¬ (Ty.ptr t).Copies ts none := by
      rintro ⟨hfalse, -⟩
      rw [hnil] at hfalse
      exact absurd hfalse (by decide)
    have hsame : (Ty.ptr t).Same ts none none := by
      change if ts.nilOK = true then _ else _
      rw [hnil]
      rfl
    refine ⟨[0] ++ [], ?_, fun target => ?_⟩
    · simp [Ty.serialize, htype, hnil, bind, Except.bind]
    · refine Reads.of_eq (deserialize_ptr_nilOK htype hnil target) (iff_false_intro hcopies) ?_
      exact Reads.of_runs ((runs_mark 0).bind (runs_pure none)) hsame

end Pointers

section Fields

variable {f : StructField} {t : Ty} {rest : Fields} {v : t.Val} {vs : rest.Val}

theorem fits_left_out (htags : f.tags? t = none) : (Fields.cons f t rest).Fits (v, vs) ↔ rest.Fits vs := by
  simp only [Fields.Fits, htags]

theorem fits_cons (htags : f.tags? t = some tags) :
    (Fields.cons f t rest).Fits (v, vs) ↔ t.Fits tags v ∧ rest.Fits vs := by
  simp only [Fields.Fits, htags]

theorem copies_left_out (htags : f.tags? t = none) :
    (Fields.cons f t rest).Copies (v, vs) ↔ rest.Copies vs := by
  simp only [Fields.Copies, htags]

theorem copies_cons (htags : f.tags? t = some tags) :
    (Fields.cons f t rest).Copies (v, vs) ↔ t.Copies tags v ∨ rest.Copies vs := by
  simp only [Fields.Copies, htags]

theorem readsBack_left_out (htags : f.tags? t = none) (hrest : rest.ReadsBack vs) :
    (Fields.cons f t rest).ReadsBack (v, vs) := by
  obtain ⟨b, hser, hread⟩ := hrest
  refine ⟨b, ?_, fun name target => ?_⟩
  · simp only [Fields.serialize, htags, hser]
  · simp only [Fields.deserialize, copies_left_out htags, htags]
    refine (hread name target.2).map fun ws hws => ?_
    simpa only [Fields.Same, htags] using hws

theorem readsBack_cons (htags : f.tags? t = some tags) (hv : t.ReadsBack tags v)
    (hrest : rest.ReadsBack vs) : (Fields.cons f t rest).ReadsBack (v, vs) := by
  obtain ⟨b, hser, hread⟩ := hv
  obtain ⟨bs, hsers, hreads⟩ := hrest
  refine ⟨b ++ bs, ?_, fun name target => ?_⟩
  · simp only [Fields.serialize, htags, hser, hsers, bind, Except.bind]
  · simp only [Fields.deserialize, copies_cons htags, htags]
    refine ((hread target.1).field name f.name).bind fun w hw => ?_
    refine (hreads name target.2).map fun ws hws => ?_
    simpa only [Fields.Same, htags] using ⟨hw, hws⟩

end Fields

mutual
/-- **Every value that fits is read back**, by induction over its type. -/
theorem Ty.reads : (t : Ty) → (ts : Tags) → (v : t.Val) → t.Fits ts v → t.ReadsBack ts v
  | .uint8 named, ts, v, _ => readsBack_uint8 named ts v
  | .uintN kind, ts, v, _ => readsBack_uintN kind ts v
  | .uint, ts, v, _ => readsBack_uint ts v
  | .bool, ts, v, _ => readsBack_bool ts v
  | .bigInt, _, _, h => readsBack_bigInt h
  | .string, _, _, h => readsBack_string h
  | .slice t, ts, (vs : List t.Val), h => by
    have helem : ∀ v ∈ vs, t.ReadsBack elemTags v := fun v hv => Ty.reads t elemTags v (h.2.2.2 v hv).1
    rcases hbyte : t.isByte with _ | _
    · exact readsBack_list hbyte h helem
    cases t with
    | uint8 named => exact readsBack_byteSlice h
    | _ => cases hbyte
  | .array n t, ts, vs, h => by
    have helem : ∀ v ∈ vs.1, t.ReadsBack elemTags v := fun v hv => Ty.reads t elemTags v (h.2 v hv)
    rcases hbyte : t.isByte with _ | _
    · exact readsBack_array hbyte h helem
    cases t with
    | uint8 named => exact readsBack_byteArray vs
    | _ => cases hbyte
  | .struct _ fs, _, v, h => readsBack_struct h (Fields.reads fs v h.2)
  | .ptr t, ts, none, h => readsBack_none h.1 fun hnil => Ty.reads t ts t.zero (h.2 hnil)
  | .ptr t, ts, some x, h => readsBack_some h.1 (Ty.reads t ts x h.2)
  | .other, _, _, h => h.elim
theorem Fields.reads : (fs : Fields) → (v : fs.Val) → fs.Fits v → fs.ReadsBack v
  | .nil, _, _ => ⟨[], rfl, fun _ _ => Reads.of_runs (runs_pure ()) trivial⟩
  | .cons f t rest, (v, vs), h => by
    rcases htags : f.tags? t with _ | tags
    · exact readsBack_left_out htags (Fields.reads rest vs ((fits_left_out htags).mp h))
    obtain ⟨hv, hvs⟩ := (fits_cons htags).mp h
    exact readsBack_cons htags (Ty.reads t tags v hv) (Fields.reads rest vs hvs)
end

/-- **The round trip.**  A value that fits is read back from its serialization exactly if no array of
named bytes is among what is read. -/
theorem roundTrip_iff (t : Ty) (ts : Tags) (v : t.Val) (h : t.Fits ts v) :
    RoundTrip t ts v ↔ ¬ t.Copies ts v := by
  obtain ⟨b, hser, hread⟩ := Ty.reads t ts v h
  constructor
  · rintro ⟨b', hser', htrip⟩ hc
    obtain rfl : b = b' := Except.ok.inj (hser.symm.trans hser')
    obtain ⟨v', hok, -⟩ := htrip t.zero []
    have hstop := (hread t.zero).stops hc [] []
    rw [List.nil_append, List.length_nil] at hstop
    rw [hstop] at hok
    cases hok
  · intro hc
    refine ⟨b, hser, fun target rest => ?_⟩
    obtain ⟨v', hruns, hsame⟩ := (hread target).gives hc
    refine ⟨v', ?_, hsame⟩
    have hok := hruns [] rest
    rw [List.nil_append, List.length_nil, Nat.zero_add] at hok
    exact hok

/-- **Serializations are prefix-free.**  Where two of them begin a stream they are equal and end alike, and they are
read back as the same value. -/
theorem serialize_prefix_free {t : Ty} {ts : Tags} {v w : t.Val} {b c rest rest' : List UInt8}
    (hv : t.Fits ts v) (hw : t.Fits ts w) (hcopies : ¬t.Copies ts v) (hb : t.serialize ts v = .ok b)
    (hc : t.serialize ts w = .ok c) (heq : b ++ rest = c ++ rest') :
    b = c ∧ rest = rest' ∧ ∃ u, t.Same ts v u ∧ t.Same ts w u := by
  obtain ⟨_, hser, hread⟩ := Ty.reads t ts v hv
  obtain ⟨_, hser', hread'⟩ := Ty.reads t ts w hw
  obtain rfl := Except.ok.inj (hser.symm.trans hb)
  obtain rfl := Except.ok.inj (hser'.symm.trans hc)
  obtain ⟨u, hruns, hu⟩ := (hread t.zero).gives hcopies
  have hok := hruns [] rest
  rw [heq] at hok
  by_cases hcopies' : t.Copies ts w
  · rw [(hread' t.zero).stops hcopies' [] rest'] at hok
    cases hok
  obtain ⟨u', hruns', hu'⟩ := (hread' t.zero).gives hcopies'
  -- both readers stop at the end of their own bytes
  rw [hruns' [] rest'] at hok
  simp only [Except.map, Except.ok.injEq, Prod.mk.injEq, ByteBuffer.mk.injEq] at hok
  obtain ⟨rfl, -, hlen⟩ := hok
  obtain ⟨hbytes, hrest⟩ := List.append_inj heq (by omega)
  exact ⟨hbytes, hrest, u', hu, hu'⟩

def structForTest : Ty :=
  .struct "structForTest"
    (.cons { name := "From" } (.ptr (.slice (.uint8 false)))
      (.cons { name := "To", ser := "nil" } (.ptr (.slice (.uint8 false)))
        (.cons { name := "IgnoredField", ser := "-" } .other
          (.cons { name := "privateField", exported := false } .other .nil))))

def structForTestVal : structForTest.Val := (some ([1, 2, 3] : List UInt8), none, (), (), ())

theorem from_tags : StructField.tags? { name := "From" } (.ptr (.slice (.uint8 false))) = some {} := by
  decide +kernel

theorem to_tags : StructField.tags? { name := "To", ser := "nil" } (.ptr (.slice (.uint8 false))) =
    some { nilOK := true } := by
  decide +kernel

theorem ignored_tags : StructField.tags? { name := "IgnoredField", ser := "-" } .other = none := by
  decide +kernel

theorem structForTest_fits : structForTest.Fits {} structForTestVal := by
  refine ⟨⟨[("From", {}), ("To", { nilOK := true })], by decide +kernel⟩, ?_⟩
  refine (fits_cons from_tags).mpr ⟨⟨rfl, rfl, by decide, by decide, ?_⟩, ?_⟩
  · intro v _
    exact ⟨trivial, by simp [Ty.serialize]⟩
  · refine (fits_cons to_tags).mpr ⟨⟨rfl, fun h => absurd h (by decide)⟩, ?_⟩
    exact (fits_left_out ignored_tags).mpr ((fits_left_out rfl).mpr trivial)

theorem structForTest_roundTrip : RoundTrip structForTest {} structForTestVal := by
  refine (roundTrip_iff _ _ _ structForTest_fits).mpr fun hcopies => ?_
  rcases (copies_cons from_tags).mp hcopies with hfrom | hrest
  · exact not_copies_byte false _ hfrom
  · rcases (copies_cons to_tags).mp hrest with hto | hleft
    · exact absurd hto.1 (by decide)
    · exact (copies_left_out rfl).mp ((copies_left_out ignored_tags).mp hleft)

/-- A null pointer has the bytes of the zero value. -/
theorem null_prefix_free : ∃ u, (Ty.ptr .bool).Same {} none u ∧ (Ty.ptr .bool).Same {} (some false) u :=
  (serialize_prefix_free (t := .ptr .bool) (v := none) (w := some false) (b := [0]) (c := [0])
    ⟨rfl, fun _ => trivial⟩ ⟨rfl, trivial⟩ (·.2) rfl rfl (rfl : ([0] : List UInt8) ++ [] = _)).2.2

/-- **An array of named bytes is not read back:** the serializer writes it, and reading it panics. -/
theorem named_bytes_panic :
    (Ty.array 1 (.uint8 true)).serialize {} ⟨[(7 : UInt8)], rfl⟩ = .ok [7] ∧
      ¬ RoundTrip (.array 1 (.uint8 true)) {} ⟨[(7 : UInt8)], rfl⟩ := by
  refine ⟨rfl, ?_⟩
  rintro ⟨b, hser, htrip⟩
  obtain rfl : [7] = b := Except.ok.inj hser
  obtain ⟨v', hok, -⟩ := htrip ⟨[(0 : UInt8)], rfl⟩ []
  cases hok

end QuarkChain.Serialize
