/-
# Reading bytes that nobody wrote

`Stable` is what is asked of a deserializer on any input: wherever it starts in the buffer it ends with a value
or an error, it does not move past the end, and what it reads it reads again, value and position, when more
bytes follow.  Everything that deserializers are put together from keeps this.  Only the number of the
remaining bytes is not stable, and `getLen` compares a length with it in the one direction that is.

`Ty.stable` is the induction over types; it leaves out the arrays of bytes under a name of their own
(`Ty.copiesNamed`), for which some input ends in the panic of `reflect.Copy` (`Ty.reachable`).
-/
import QuarkChain.Serialize.RoundTrip

namespace QuarkChain.Serialize

open Bytes Outcome

/-- **Safe on hostile input, and stable under longer input.** -/
def Stable {α : Type} (d : Reader α) : Prop :=
  ∀ bb : ByteBuffer, bb.position ≤ bb.data.length → Post (d bb)
    (fun r => r.2.data = bb.data ∧ bb.position ≤ r.2.position ∧ r.2.position ≤ bb.data.length ∧
      ∀ more, d { bb with data := bb.data ++ more } = .ok (r.1, { r.2 with data := bb.data ++ more }))
    fun s => ∃ e, s = .deser (.error e)

variable {ts : Tags} {b : List UInt8} {t : Ty} {copies : Prop}

section Stable

variable {α β : Type} {d : Reader α} {f : α → Reader β}

theorem stable_pure (a : α) : Stable (pure a : Reader α) :=
  fun _ hbb => ⟨rfl, le_rfl, hbb, fun _ => rfl⟩

theorem stable_fail (e : DeserError) : Stable (Reader.fail e : Reader α) := fun _ _ => ⟨e, rfl⟩

theorem stable_ofTypeInfo (x : Except TypeError α) : Stable (Reader.ofTypeInfo x) := by
  cases x with
  | error e => exact stable_fail (.typ e)
  | ok a => exact stable_pure a

theorem Stable.bind (hd : Stable d) (hf : ∀ a, Stable (f a)) : Stable (d >>= f) := by
  intro bb hbb
  have hfirst := hd bb hbb
  change Post (d bb >>= fun r => f r.1 r.2) _ _
  refine hfirst.bind fun r hr => ?_
  obtain ⟨hdata, hle, hend, hmore⟩ := hr
  refine (hf r.1 r.2 (hdata ▸ hend)).imp fun r' hr' => ?_
  obtain ⟨hdata', hle', hend', hmore'⟩ := hr'
  rw [hdata] at hdata' hend' hmore'
  refine ⟨hdata', hle.trans hle', hend', fun more => ?_⟩
  change (d _ >>= fun r => f r.1 r.2) = _
  rw [hmore more]
  exact hmore' more

theorem Stable.map (hd : Stable d) (g : α → β) : Stable (g <$> d) := by
  rw [map_eq_pure_bind]
  exact hd.bind fun a => stable_pure (g a)

theorem Stable.field (hd : Stable d) (typ name : String) : Stable (Reader.field typ name d) := by
  intro bb hbb
  have h := hd bb hbb
  unfold Reader.field
  cases hr : d bb with
  | error s =>
    rw [hr] at h
    obtain ⟨e, rfl⟩ := h
    exact ⟨_, rfl⟩
  | ok r =>
    rw [hr] at h
    obtain ⟨hdata, hle, hend, hmore⟩ := h
    refine ⟨hdata, hle, hend, fun more => ?_⟩
    rw [hmore more]
    rfl

theorem stable_getBytes (size : ℕ) : Stable (Reader.buffer (getBytes size)) := by
  intro bb hbb
  unfold Reader.buffer getBytes
  split_ifs with hshort
  · exact ⟨_, rfl⟩
  have hfit : bb.position + size ≤ bb.data.length := by omega
  have hslice : slice bb.data bb.position (bb.position + size) =
      .ok ((bb.data.drop bb.position).take size) := by
    rw [slice, if_pos (by omega), Nat.add_sub_cancel_left]
  rw [hslice]
  refine ⟨rfl, Nat.le_add_right .., hfit, fun more => ?_⟩
  have hlen : (bb.data ++ more).length = bb.data.length + more.length := List.length_append
  have hbytes : ((bb.data ++ more).drop bb.position).take size = (bb.data.drop bb.position).take size := by
    rw [List.drop_append_of_le_length hbb, List.take_append_of_le_length]
    rw [List.length_drop]
    omega
  rw [if_neg (by simp only [hlen]; omega), slice, if_pos (by simp only [hlen]; omega), Nat.add_sub_cancel_left,
    hbytes]
  rfl

theorem stable_getUInt (bytes : ℕ) : Stable (Reader.buffer (getUInt bytes)) := by
  rw [getUInt, buffer_map]
  exact (stable_getBytes bytes).map bigEndian

/-- **A length that is not refused is not refused when more bytes follow.** -/
theorem stable_getLen (byteSize : ℕ) : Stable (Reader.buffer (getLen byteSize)) := by
  unfold getLen
  split_ifs
  · exact stable_fail _
  · exact stable_fail _
  rw [buffer_bind]
  refine (stable_getUInt byteSize).bind fun size bb hbb => ?_
  change Post (Except.mapError _ ((if _ then _ else _ : Deserializer ℕ) bb)) _ _
  split_ifs with hlong
  · exact ⟨_, rfl⟩
  refine ⟨rfl, le_rfl, hbb, fun more => ?_⟩
  change Except.mapError _ ((if size > (bb.data ++ more).length - bb.position then _ else _ :
    Deserializer ℕ) _) = _
  rw [if_neg (by rw [List.length_append]; omega)]
  rfl

theorem stable_getVarBytes (byteSize : ℕ) : Stable (Reader.buffer (getVarBytes byteSize)) := by
  rw [getVarBytes, buffer_bind]
  exact (stable_getLen byteSize).bind stable_getBytes

theorem stable_deserializeBool : Stable deserializeBool := by
  refine (stable_getBytes 1).bind fun b => ?_
  split_ifs
  · exact stable_pure false
  · exact stable_pure true
  · exact stable_fail _

theorem stable_deserializeInto {elem : α → Reader α} {targets : List α} (h : ∀ a ∈ targets, Stable (elem a)) :
    Stable (deserializeInto elem targets) := by
  induction targets with
  | nil => exact stable_pure []
  | cons a targets ih =>
    obtain ⟨ha, htargets⟩ := List.forall_mem_cons.mp h
    exact ha.bind fun _ => (ih htargets).bind fun _ => stable_pure _

theorem stable_deserializeSlice {elem : t.Val → Reader t.Val} (h : ∀ a, Stable (elem a)) (ts : Tags)
    (target : List t.Val) : Stable (deserializeSlice t elem ts target) := by
  rcases hbyte : t.isByte with _ | _
  · rw [deserializeSlice_eq hbyte]
    exact (stable_ofTypeInfo _).bind fun _ => (stable_getLen _).bind fun _ =>
      stable_deserializeInto fun a _ => h a
  cases t with
  | uint8 named => exact stable_getVarBytes _
  | _ => cases hbyte

theorem stable_deserializeArray {elem : t.Val → Reader t.Val} {target : List t.Val}
    (hnamed : t.isNamedByte = false) (h : ∀ a ∈ target, Stable (elem a)) :
    Stable (deserializeArray t elem target) := by
  rcases hbyte : t.isByte with _ | _
  · rw [deserializeArray_eq hbyte]
    exact (stable_ofTypeInfo _).bind fun _ => stable_deserializeInto h
  cases t with
  | uint8 named =>
    obtain rfl : named = false := hnamed
    exact (stable_getBytes _).bind stable_pure
  | _ => cases hbyte

end Stable

mutual
/-- Some array of bytes with a name of their own is read. -/
def Ty.copiesNamed : Ty → Bool
  | .slice t => t.copiesNamed
  | .array n t => t.isNamedByte || (n != 0 && t.copiesNamed)
  | .struct _ fs => fs.copiesNamed
  | .ptr t => t.copiesNamed
  | _ => false
def Fields.copiesNamed : Fields → Bool
  | .nil => false
  | .cons f t rest => ((f.tags? t).isSome && t.copiesNamed) || rest.copiesNamed
end

mutual
theorem Ty.stable : (t : Ty) → (ts : Tags) → (target : t.Val) → t.copiesNamed = false →
    Stable (t.deserialize ts target)
  | .uint8 _, _, _, _ => (stable_getUInt 1).map UInt8.ofNat
  | .uintN kind, _, _, _ => (stable_getUInt kind.bytes).map (BitVec.ofNat (8 * kind.bytes))
  | .uint, _, _, _ => (stable_getVarBytes 1).map fun bytes => UInt64.ofNat (bigEndian bytes)
  | .bool, _, _, _ => stable_deserializeBool
  | .bigInt, _, _, _ => by
    refine Stable.map ?_ Int.ofNat
    rw [deserializeBigInt, buffer_map]
    exact (stable_getVarBytes 1).map bigEndian
  | .string, _, _, _ => stable_getVarBytes 4
  | .slice t, ts, target, h =>
    stable_deserializeSlice (fun a => Ty.stable t elemTags a h) ts target
  | .array n t, _, target, h => by
    obtain ⟨hnamed, helem⟩ := Bool.or_eq_false_iff.mp h
    refine Stable.map (stable_deserializeArray hnamed fun a ha => Ty.stable t elemTags a ?_) _
    have hn : n ≠ 0 := target.2 ▸ (List.length_pos_of_mem ha).ne'
    simpa [hn] using helem
  | .struct name fs, _, target, h =>
    (stable_ofTypeInfo fs.structFields).bind fun _ => Fields.stable fs name target h
  | .ptr t, ts, target, h => by
    refine (stable_ofTypeInfo t.typeInfo).bind fun _ => ?_
    have hthen : ∀ isNil : Bool, Stable (if isNil then pure none
        else some <$> t.deserialize ts (target.getD t.zero) : Reader (Option t.Val)) := by
      intro isNil
      cases isNil with
      | true => exact stable_pure none
      | false => exact (Ty.stable t ts (target.getD t.zero) h).map some
    dsimp only
    split_ifs
    · exact ((stable_getUInt 1).map _).bind hthen
    · exact hthen false
  | .other, _, _, _ => stable_fail _
theorem Fields.stable : (fs : Fields) → (name : String) → (target : fs.Val) → fs.copiesNamed = false →
    Stable (fs.deserialize name target)
  | .nil, _, _, _ => stable_pure ()
  | .cons f t rest, name, target, h => by
    obtain ⟨ht, hrest⟩ := Bool.or_eq_false_iff.mp h
    have hstable := Fields.stable rest name target.2 hrest
    rcases htags : f.tags? t with _ | tags
    · simp only [Fields.deserialize, htags]
      exact hstable.map _
    · simp only [Fields.deserialize, htags]
      rw [htags] at ht
      exact ((Ty.stable t tags target.1 ht).field name f.name).bind fun _ => hstable.map _
end

mutual
/-- **The supported types:** there is a serializer for all that they are made of, and the lengths of slices
take one to four bytes. -/
def Ty.Supported : Ty → Tags → Prop
  | .slice t, ts => (1 ≤ ts.byteSizeOfSliceLen ∧ ts.byteSizeOfSliceLen ≤ 4) ∧ t.Supported elemTags
  | .array _ t, _ => t.Supported elemTags
  | .struct _ fs, _ => (∃ fields, fs.structFields = .ok fields) ∧ fs.Supported
  | .ptr t, ts => t.Supported ts
  | .other, _ => False
  | _, _ => True
def Fields.Supported : Fields → Prop
  | .nil => True
  | .cons f t rest => (∀ tags, f.tags? t = some tags → t.Supported tags) ∧ rest.Supported
end

theorem Ty.Supported.typeInfo (h : t.Supported ts) : t.typeInfo = .ok () := by
  cases t with
  | other => exact h.elim
  | _ => rfl

/-- Some input is read, or ends in the panic if the type has one. -/
def Ty.Reachable (t : Ty) (ts : Tags) : Prop :=
  ∃ b, ∀ target, Reads (t.deserialize ts target) b (t.copiesNamed = true) fun _ => True

theorem Reads.any {α : Type} {d : Reader α} {copies' : Prop} {same : α → Prop}
    (h : Reads d b copies same) (hcopies : copies' ↔ copies) : Reads d b copies' fun _ => True :=
  Reads.of_eq (id_map d).symm hcopies (h.map fun _ _ => trivial)

theorem reachable_of_readsBack {v : t.Val} (h : t.ReadsBack ts v)
    (hcopies : t.copiesNamed = true ↔ t.Copies ts v) : t.Reachable ts := by
  obtain ⟨b, -, hread⟩ := h
  exact ⟨b, fun target => (hread target).any hcopies⟩

theorem reachable_slice (h : (Ty.slice t).Supported ts)
    (helem : t.Reachable elemTags) : (Ty.slice t).Reachable ts := by
  obtain ⟨hsize, ht⟩ := h
  cases hcopies : t.copiesNamed with
  | false =>
    have hempty : (Ty.slice t).Fits ts ([] : List t.Val) :=
      ⟨ht.typeInfo, hsize, Nat.pow_pos (by decide), fun v hv => absurd hv List.not_mem_nil⟩
    refine reachable_of_readsBack (Ty.reads _ ts _ hempty) ⟨fun hc => ?_, ?_⟩
    · exact absurd (hcopies.symm.trans hc) (by decide)
    · rintro ⟨v, hv, -⟩
      exact absurd hv List.not_mem_nil
  | true =>
    obtain ⟨b, hread⟩ := helem
    have hbyte : t.isByte = false := by
      cases t with
      | uint8 named => cases hcopies
      | _ => rfl
    -- a slice of one element; the byte after it is there in case the element takes none
    refine ⟨toBE ts.byteSizeOfSliceLen.toNat 1 ++ (b ++ [0]), fun target =>
      Reads.of_eq (deserialize_slice hbyte ht.typeInfo) Iff.rfl ⟨fun _ => ?_, fun hno => absurd hcopies hno⟩⟩
    have hone : 1 < 256 ^ ts.byteSizeOfSliceLen.toNat := Nat.one_lt_pow (by omega) (by decide)
    refine Runs.getLen_bind (toNat_size hsize) hone (by simp) ?_
    obtain ⟨x, hx⟩ := List.length_eq_one_iff.mp (length_newSlice t.zero 1 target)
    rw [hx]
    exact ((hread x).stops hcopies).bind_error

theorem reads_into {α : Type} {d : α → Reader α}
    (h : ∀ target, Reads (d target) b copies fun _ => True) (n : ℕ) :
    ∃ bs, ∀ targets : List α, targets.length = n →
      Reads (deserializeInto d targets) bs (n ≠ 0 ∧ copies) fun l => l.length = n := by
  induction n with
  | zero =>
    refine ⟨[], fun targets hlen => ?_⟩
    obtain rfl := List.length_eq_zero_iff.mp hlen
    exact Reads.of_eq rfl (by simp) (Reads.of_runs (runs_pure []) rfl)
  | succ n ih =>
    obtain ⟨bs, hreads⟩ := ih
    refine ⟨b ++ bs, fun targets hlen => ?_⟩
    obtain ⟨target, targets, rfl⟩ := List.exists_cons_of_length_eq_add_one hlen
    have hrest := hreads targets (Nat.succ.inj hlen)
    refine Reads.of_eq rfl (show n + 1 ≠ 0 ∧ copies ↔ copies ∨ n ≠ 0 ∧ copies by tauto) ?_
    refine (h target).bind fun a _ => ?_
    exact hrest.map fun as has => congrArg Nat.succ has

theorem reachable_array (n : ℕ) (h : t.Supported elemTags)
    (helem : t.Reachable elemTags) : (Ty.array n t).Reachable ts := by
  rcases hbyte : t.isByte with _ | _
  · obtain ⟨b, hread⟩ := helem
    obtain ⟨bs, hreads⟩ := reads_into hread n
    have hnamed : t.isNamedByte = false := by
      cases t with
      | uint8 named => cases hbyte
      | _ => rfl
    refine ⟨bs, fun target => Reads.of_eq (deserialize_array hbyte h.typeInfo) ?_
      ((hreads target.1 target.2).map fun _ _ => trivial)⟩
    simp [Ty.copiesNamed, hnamed]
  cases t with
  | uint8 named =>
    refine reachable_of_readsBack (readsBack_byteArray (Ty.array n (.uint8 named)).zero) ?_
    rw [show (Ty.array n (.uint8 named)).copiesNamed = named by simp [Ty.copiesNamed, Ty.isNamedByte]]
    exact (or_iff_left (not_copies_byte named _)).symm
  | _ => cases hbyte

theorem reachable_ptr (h : t.Supported ts) (helem : t.Reachable ts) : (Ty.ptr t).Reachable ts := by
  obtain ⟨b, hread⟩ := helem
  cases hnil : ts.nilOK with
  | false =>
    exact ⟨b, fun target => Reads.of_eq (deserialize_ptr h.typeInfo hnil target) Iff.rfl
      ((hread _).map fun _ _ => trivial)⟩
  | true =>
    refine ⟨[1] ++ b, fun target => Reads.of_eq (deserialize_ptr_nilOK h.typeInfo hnil target)
      (false_or _).symm.to_iff ?_⟩
    have hmark : Reads ((· == 0) <$> Reader.buffer (getUInt 1)) [1] False (· = false) :=
      Reads.of_runs (runs_mark 1) rfl
    refine hmark.bind fun isNil hfalse => ?_
    rw [hfalse]
    exact (hread _).map fun _ _ => trivial

mutual
theorem Ty.reachable : (t : Ty) → (ts : Tags) → t.Supported ts → t.Reachable ts
  | .uint8 named, ts, _ => reachable_of_readsBack (readsBack_uint8 named ts 0) ⟨nofun, nofun⟩
  | .uintN kind, ts, _ => reachable_of_readsBack (readsBack_uintN kind ts 0) ⟨nofun, nofun⟩
  | .uint, ts, _ => reachable_of_readsBack (readsBack_uint ts 0) ⟨nofun, nofun⟩
  | .bool, ts, _ => reachable_of_readsBack (readsBack_bool ts false) ⟨nofun, nofun⟩
  | .bigInt, ts, _ =>
    reachable_of_readsBack (Ty.reads .bigInt ts (0 : ℤ) ⟨le_rfl, by decide +kernel⟩) ⟨nofun, nofun⟩
  | .string, ts, _ =>
    reachable_of_readsBack (Ty.reads .string ts ([] : List UInt8) (Nat.two_pow_pos 32)) ⟨nofun, nofun⟩
  | .slice t, _, h => reachable_slice h (Ty.reachable t elemTags h.2)
  | .array n t, _, h => reachable_array n h (Ty.reachable t elemTags h)
  | .struct name fs, ts, ⟨⟨_, hfields⟩, hfs⟩ => by
    obtain ⟨b, hread⟩ := Fields.reachable fs hfs
    refine ⟨b, fun target => ?_⟩
    change Reads (Reader.ofTypeInfo fs.structFields >>= fun _ => fs.deserialize name target) _ _ _
    rw [hfields]
    exact hread name target
  | .ptr t, ts, h => reachable_ptr h (Ty.reachable t ts h)
  | .other, _, h => h.elim
theorem Fields.reachable : (fs : Fields) → fs.Supported →
    ∃ b, ∀ name target, Reads (fs.deserialize name target) b (fs.copiesNamed = true) fun _ => True
  | .nil, _ => ⟨[], fun _ _ => Reads.of_eq rfl ⟨nofun, nofun⟩ (Reads.of_runs (runs_pure ()) trivial)⟩
  | .cons f t rest, ⟨ht, hrest⟩ => by
    obtain ⟨bs, hreads⟩ := Fields.reachable rest hrest
    rcases htags : f.tags? t with _ | tags
    · refine ⟨bs, fun name target => ?_⟩
      simp only [Fields.deserialize, Fields.copiesNamed, htags]
      exact (hreads name target.2).map fun _ _ => trivial
    · obtain ⟨b, hread⟩ := Ty.reachable t tags (ht tags htags)
      refine ⟨b ++ bs, fun name target => ?_⟩
      simp only [Fields.deserialize, Fields.copiesNamed, htags, Option.isSome_some, Bool.true_and,
        Bool.or_eq_true]
      refine ((hread target.1).field name f.name).bind fun w _ => ?_
      exact (hreads name target.2).map fun _ _ => trivial
end

/-- **Deserialization on hostile input.**  Reading a supported type is safe and stable exactly if no array
of bytes under a name of their own is read. -/
theorem stable_iff (t : Ty) (ts : Tags) (target : t.Val) (h : t.Supported ts) :
    Stable (t.deserialize ts target) ↔ t.copiesNamed = false := by
  refine ⟨fun hstable => Bool.eq_false_iff.mpr fun hcopies => ?_, Ty.stable t ts target⟩
  obtain ⟨b, hread⟩ := Ty.reachable t ts h
  have hstop := (hread target).stops hcopies [] []
  have hpost := hstable { data := b } (Nat.zero_le _)
  rw [List.nil_append, List.append_nil, List.length_nil] at hstop
  obtain ⟨e, he⟩ := hpost.of_error hstop
  cases he

def hostileList : Ty :=
  .slice (.struct "item" (.cons { name := "To", ser := "nil" } (.ptr .string) .nil))

theorem hostileList_stable : Stable (hostileList.deserialize {} ([] : List _)) := by
  have htags : StructField.tags? { name := "To", ser := "nil" } (.ptr .string) = some { nilOK := true } := by
    decide +kernel
  refine (stable_iff hostileList {} _ ⟨by decide, ⟨[("To", { nilOK := true })], by decide +kernel⟩, ?_⟩).mpr ?_
  · exact ⟨fun _ _ => trivial, trivial⟩
  · simp [hostileList, Ty.copiesNamed, Fields.copiesNamed]

/-- **A byte of input for an array of named bytes is a panic.** -/
theorem named_array_unstable :
    (Ty.array 1 (.uint8 true)).deserialize {} ⟨[(0 : UInt8)], rfl⟩ { data := [7] } = .error .reflectCopy ∧
      ¬ Stable ((Ty.array 1 (.uint8 true)).deserialize {} ⟨[(0 : UInt8)], rfl⟩) := by
  have hpanic : (Ty.array 1 (.uint8 true)).deserialize {} ⟨[(0 : UInt8)], rfl⟩ { data := [7] } =
      .error .reflectCopy := rfl
  refine ⟨hpanic, fun hstable => ?_⟩
  obtain ⟨e, he⟩ := (hstable { data := [7] } (Nat.zero_le _)).of_error hpanic
  cases he

end QuarkChain.Serialize
