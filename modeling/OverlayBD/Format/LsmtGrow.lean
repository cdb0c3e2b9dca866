import OverlayBD.Format.LsmtLog

/-!
# Growing a pair

`grow` publishes an intent, rewrites both headers and retires the intent.  Old and new header differ in the capacity
only, so a header that was written in part is a header with a torn capacity.

* `HeaderTrailer.torn_region` — a torn header parses.
* `Growing` — the directory between publication and retirement, each header old, new or torn.
* `checkGrow_of_growing` — recovery accepts every such directory.
* `rollForward_spec` — it ends with both new headers and no intent; a failure leaves a directory it accepts again.
-/

namespace OverlayBD

open Intervals SegmentMapping Bytes Errno Effect

/-! ### Torn capacities -/

/-- The capacity a header has after `k` bytes of the new one were written over the old one. -/
def tornCapacity (old new k : ℕ) : ℕ := new % 2 ^ (8 * k) + old / 2 ^ (8 * k) * 2 ^ (8 * k)

theorem tornCapacity_zero (old new : ℕ) : tornCapacity old new 0 = old := by
  simp [tornCapacity, Nat.mod_one]

theorem tornCapacity_lt {old new k : ℕ} (hk : k ≤ 8) (ho : old < 2 ^ 64) : tornCapacity old new k < 2 ^ 64 := by
  have hpos : 0 < 2 ^ (8 * k) := Nat.pow_pos (by decide)
  have hsplit : 2 ^ 64 = 2 ^ (64 - 8 * k) * 2 ^ (8 * k) := by
    rw [← Nat.pow_add]
    congr 1
    omega
  have hhigh : old / 2 ^ (8 * k) < 2 ^ (64 - 8 * k) := Nat.div_lt_of_lt_mul (by rwa [Nat.mul_comm, ← hsplit])
  have hlow := Nat.mod_lt new hpos
  have hmul := Nat.mul_le_mul_right (2 ^ (8 * k)) (Nat.succ_le_of_lt hhigh)
  rw [Nat.succ_mul, ← hsplit] at hmul
  unfold tornCapacity
  omega

/-- A torn write over a torn write. -/
theorem tornCapacity_tornCapacity (old new j k : ℕ) :
    tornCapacity (tornCapacity old new k) new j = tornCapacity old new (max j k) := by
  have hposk : 0 < 2 ^ (8 * k) := Nat.pow_pos (by decide)
  rcases Nat.le_total j k with hjk | hkj
  · -- the low bytes were the new ones before
    have hdvd : 2 ^ (8 * j) ∣ 2 ^ (8 * k) := Nat.pow_dvd_pow 2 (by omega)
    have hmod : tornCapacity old new k % 2 ^ (8 * j) = new % 2 ^ (8 * j) := by
      obtain ⟨c, hc⟩ := hdvd
      rw [tornCapacity, Nat.add_mod, Nat.mod_mod_of_dvd _ ⟨c, hc⟩, hc, ← Nat.mul_assoc, Nat.mul_right_comm,
        Nat.mul_mod_left, Nat.add_zero, Nat.mod_mod]
    rw [max_eq_right hjk, tornCapacity, ← hmod, Nat.mod_add_div']
  · -- the high bytes were the old ones before
    have hdiv : tornCapacity old new k / 2 ^ (8 * k) = old / 2 ^ (8 * k) := by
      rw [tornCapacity, Nat.add_mul_div_right _ _ hposk, Nat.div_eq_of_lt (Nat.mod_lt _ hposk), Nat.zero_add]
    have hsplit : 2 ^ (8 * j) = 2 ^ (8 * k) * 2 ^ (8 * j - 8 * k) := by
      rw [← Nat.pow_add]
      congr 1
      omega
    have hhigh : tornCapacity old new k / 2 ^ (8 * j) = old / 2 ^ (8 * j) := by
      rw [hsplit, ← Nat.div_div_eq_div_mul, hdiv, Nat.div_div_eq_div_mul]
    rw [max_eq_left hkj, tornCapacity, hhigh, tornCapacity]

namespace HeaderTrailer

/-- The same header with another capacity. -/
abbrev withCapacity (h : HeaderTrailer) (v : ℕ) : HeaderTrailer := { h with virtualSize := v }

/-- Where the capacity is in a region. -/
theorem serialize_withCapacity {h : HeaderTrailer} {b : List UInt8} (hb : h.serialize = some b) :
    ∃ front back, front.length = 48 ∧ ∀ v, (h.withCapacity v).serialize = some (front ++ (leBytes 8 v ++ back)) := by
  obtain ⟨u, p, t, hu, hp, ht, -⟩ := serialize_eq_some hb
  refine ⟨[kMagic0, kMagic1, leBytes 4 kHeaderSize, leBytes 4 h.flags, leBytes 8 h.indexOffset,
      leBytes 8 h.indexSize].flatten, [u, p, leBytes 2 h.reserved, leBytes 1 h.version, leBytes 1 h.subVersion, t,
      List.replicate (kSpace - kHeaderSize) 0].flatten, ?_, fun v => ?_⟩
  · simp only [List.flatten_cons, List.length_append, length_leBytes]
    rfl
  · unfold serialize
    rw [show (h.withCapacity v).uuid = h.uuid from rfl, show (h.withCapacity v).parentUuid = h.parentUuid from rfl,
      show (h.withCapacity v).userTag = h.userTag from rfl, hu, hp, ht]
    simp only [pieces, List.flatten_cons, List.flatten_nil, List.append_assoc, List.append_nil]

/-- **A torn header** is the header with a torn capacity. -/
theorem torn_region {h : HeaderTrailer} {c v n : ℕ} {old new : List UInt8}
    (hold : (h.withCapacity c).serialize = some old) (hnew : (h.withCapacity v).serialize = some new) :
    (h.withCapacity (tornCapacity c v (min (n - 48) 8))).serialize = some (new.take n ++ old.drop n) := by
  obtain ⟨front, back, hlen, hser⟩ := serialize_withCapacity hold
  have hser' : ∀ v, (h.withCapacity v).serialize = some (front ++ (leBytes 8 v ++ back)) := hser
  obtain rfl := Option.some.inj ((hser' c).symm.trans hold)
  obtain rfl := Option.some.inj ((hser' v).symm.trans hnew)
  have hmix := take_append_drop_leBytes 8 v c (min (n - 48) 8)
  rw [show 256 = 2 ^ 8 from rfl, ← Nat.pow_mul] at hmix
  rw [hser', take_append_drop_middle (length_leBytes 8 v) (length_leBytes 8 c), hlen, hmix]
  rfl

end HeaderTrailer

namespace FilePair

/-! ### The intent -/

/-- The bytes of an intent. -/
def growBytes (old : ℕ) (data index : List UInt8) : List UInt8 :=
  let body := leBytes 8 kGrowMagic ++ leBytes 8 old ++ data ++ index
  body ++ leBytes 4 (crc32c body).toNat

section Intent

variable {data index : List UInt8}

/-- The fields of an intent, at the offsets the source reads them from. -/
theorem growBytes_fields (old : ℕ) (hd : data.length = kSpace) (hi : index.length = kSpace) :
    (growBytes old data index).length = kGrowBytes ∧
      field (growBytes old data index) 0 8 = leBytes 8 kGrowMagic ∧
      field (growBytes old data index) 8 8 = leBytes 8 old ∧
      field (growBytes old data index) 16 kSpace = data ∧
      field (growBytes old data index) (16 + kSpace) kSpace = index ∧
      field (growBytes old data index) (kGrowBytes - 4) 4
        = leBytes 4 (crc32c ((growBytes old data index).take (kGrowBytes - 4))).toNat := by
  set body := leBytes 8 kGrowMagic ++ leBytes 8 old ++ data ++ index with hbody
  have hlen : body.length = kGrowBytes - 4 := by
    simp only [hbody, List.length_append, length_leBytes, hd, hi]
    rfl
  have hflat : growBytes old data index = [leBytes 8 kGrowMagic, leBytes 8 old, data, index,
      leBytes 4 (crc32c body).toNat].flatten := by
    simp only [growBytes, ← hbody, List.flatten_cons, List.flatten_nil, List.append_nil]
    rw [hbody]
    simp only [List.append_assoc]
  have htake : (growBytes old data index).take (kGrowBytes - 4) = body := by
    rw [growBytes, ← hbody, ← hlen]
    exact List.take_left
  have hl : [leBytes 8 kGrowMagic, leBytes 8 old, data, index, leBytes 4 (crc32c body).toNat].map List.length
      = [8, 8, kSpace, kSpace, 4] := by
    simp only [List.map_cons, List.map_nil, length_leBytes, hd, hi]
  refine ⟨?_, ?_, ?_, ?_, ?_, ?_⟩
  · rw [hflat, List.length_flatten, hl]
    rfl
  · rw [hflat]
    exact field_flatten hl 0 rfl rfl (length_leBytes _ _)
  · rw [hflat]
    exact field_flatten hl 1 rfl rfl (length_leBytes _ _)
  · rw [hflat]
    exact field_flatten hl 2 rfl rfl hd
  · rw [hflat]
    exact field_flatten hl 3 rfl rfl hi
  · rw [htake, hflat]
    exact field_flatten hl 4 rfl rfl (length_leBytes _ _)

end Intent

/-! ### Directories of a grow -/

/-- A region between a header and the same header with capacity `v`. -/
def TornRegion (h : HeaderTrailer) (v : ℕ) (region : List UInt8) : Prop :=
  ∃ k ≤ 8, (h.withCapacity (tornCapacity h.virtualSize v k)).serialize = some region

/-- The header that was there. -/
theorem tornRegion_old {h : HeaderTrailer} {region : List UInt8} (v : ℕ) (hr : h.serialize = some region) :
    TornRegion h v region := by
  refine ⟨0, Nat.zero_le 8, ?_⟩
  rw [tornCapacity_zero]
  exact hr

/-- **One more write of the new header**, perhaps cut short. -/
theorem TornRegion.write {h : HeaderTrailer} {v : ℕ} {region new : List UInt8} (hr : TornRegion h v region)
    (hnew : (h.withCapacity v).serialize = some new) (n : ℕ) : TornRegion h v (new.take n ++ region.drop n) := by
  obtain ⟨k, hk, hser⟩ := hr
  refine ⟨max (min (n - 48) 8) k, by omega, ?_⟩
  rw [← tornCapacity_tornCapacity]
  exact HeaderTrailer.torn_region hser hnew

/-- **A published grow** to capacity `v`: the intent, and each header old, new or torn. -/
structure Growing (d : Disk) (header : HeaderTrailer) (v : ℕ) (records : List SegmentMapping) : Prop extends
    Body d (header.virtualSize / kAlignment) records where
  valid : PairHeader header
  target : PairHeader (header.withCapacity v)
  grows : header.virtualSize < v
  dataRegion : TornRegion header v (d.data.read 0 kSpace)
  indexRegion : TornRegion (indexHeader header) v (d.index.read 0 kSpace)
  intent : ∃ data index, (header.withCapacity v).serialize = some data ∧
    ((indexHeader header).withCapacity v).serialize = some index ∧
    d.growIntent = some (growBytes header.virtualSize data index)

/-- Payload and log do not depend on the headers. -/
theorem Body.front {d d' : Disk} {sectors : ℕ} {records : List SegmentMapping} (h : Body d sectors records)
    (hd : d'.data.size = d.data.size) (hi : d'.index.size = d.index.size)
    (hb : ∀ i, kSpace ≤ i → d'.index.byte i = d.index.byte i) : Body d' sectors records := by
  refine ⟨hd ▸ h.data_ge, hd ▸ h.data_lt, ?_, hi ▸ h.index_ge, hi ▸ h.index_lt, hd ▸ h.replays, h.distinct⟩
  refine Eq.trans (List.map_congr_left fun i _ => ?_) h.log
  exact congrArg loadSegmentLe (File.read_congr fun j _ => hb _ (by omega))

theorem Body.mono {d : Disk} {sectors sectors' : ℕ} {records : List SegmentMapping} (h : Body d sectors records)
    (hs : sectors ≤ sectors') : Body d sectors' records :=
  ⟨h.data_ge, h.data_lt, h.log, h.index_ge, h.index_lt, h.replays.mono hs le_rfl, h.distinct⟩

theorem LogOn.passed {d : Disk} {header : HeaderTrailer} {records : List SegmentMapping} (h : LogOn d header records) :
    LogOn d.passed header records :=
  ⟨h.toBody.front rfl rfl fun _ _ => rfl, h.valid, h.dataRegion, h.indexRegion, h.intent⟩

section Growing

variable {d : Disk} {header : HeaderTrailer} {v : ℕ} {records : List SegmentMapping}

/-- The capacity of a header in between. -/
theorem growMatches_torn {h : HeaderTrailer} {old k : ℕ} (hk : k ≤ 8) (hf : (h.withCapacity v).Fits) :
    growMatches old v (h.withCapacity v) (h.withCapacity (tornCapacity old v k)) = true := by
  have hcap : capacityMatches old v (tornCapacity old v k) = true :=
    List.any_eq_true.mpr ⟨k, List.mem_range.mpr (by omega), decide_eq_true rfl⟩
  unfold growMatches
  rw [hcap, HeaderTrailer.serialize_of_fits hf]
  simp

theorem fits_torn {h : HeaderTrailer} {old k : ℕ} (hk : k ≤ 8) (hf : h.Fits) (ho : old < 2 ^ 64) :
    (h.withCapacity (tornCapacity old v k)).Fits :=
  ⟨hf.size, hf.flags, hf.indexOffset, hf.indexSize, tornCapacity_lt hk ho, hf.uuid, hf.parentUuid, hf.reserved,
    hf.version, hf.subVersion, hf.userTag⟩

/-- **Recovery accepts every directory of a grow.** -/
theorem checkGrow_of_growing (h : Growing d header v records) {raw : List UInt8} (hraw : d.growIntent = some raw) :
    checkGrow d raw = some (header.withCapacity v) := by
  obtain ⟨data, index, hdata, hindex, hintent⟩ := h.intent
  obtain rfl := Option.some.inj (hintent.symm.trans hraw)
  obtain ⟨hlen, hmagic, hold, hfd, hfi, hcrc⟩ :=
    growBytes_fields header.virtualSize (HeaderTrailer.length_serialize hdata) (HeaderTrailer.length_serialize hindex)
  obtain ⟨kd, hkd, hdr⟩ := h.dataRegion
  obtain ⟨ki, hki, hir⟩ := h.indexRegion
  have hfit := h.valid.fits.virtualSize
  have hbody : Body d ((header.withCapacity v).virtualSize / kAlignment) records :=
    h.toBody.mono (Nat.div_le_div_right h.grows.le)
  obtain ⟨hvalid, hload⟩ := hbody.accepted h.target
  change Replay.load v _ _ _ = _ at hload
  have hmagic' : leNat (leBytes 8 kGrowMagic) = kGrowMagic := leNat_leBytes_of_lt (by decide)
  have hold' : leNat (leBytes 8 header.virtualSize) = header.virtualSize :=
    leNat_leBytes_of_lt (hfit.trans_eq (by norm_num))
  have hcrc' : ∀ w : UInt32, leNat (leBytes 4 w.toNat) = w.toNat :=
    fun w => leNat_leBytes_of_lt (w.toNat_lt.trans_eq (by norm_num))
  have hisize : kSpace ≤ d.index.size := (Nat.le_add_right _ _).trans h.index_ge
  have hgd : growMatches header.virtualSize v (header.withCapacity v)
      (header.withCapacity (tornCapacity header.virtualSize v kd)) = true := growMatches_torn hkd h.target.fits
  have hgi : growMatches header.virtualSize v (indexHeader (header.withCapacity v))
      ((indexHeader header).withCapacity (tornCapacity header.virtualSize v ki)) = true :=
    growMatches_torn (h := indexHeader header) hki h.target.fits_index
  have hguard : header.virtualSize ≠ 0 ∧ header.virtualSize % kAlignment = 0 ∧ header.virtualSize < v :=
    ⟨h.valid.capacity_pos, h.valid.capacity_aligned, h.grows⟩
  unfold checkGrow
  rw [hlen, hmagic, hold, hfd, hfi, hcrc, hmagic', hold', hcrc', HeaderTrailer.parse_serialize h.target.fits hdata,
    HeaderTrailer.parse_serialize h.target.fits_index hindex,
    HeaderTrailer.parse_serialize (fits_torn hkd h.valid.fits hfit) hdr,
    HeaderTrailer.parse_serialize (fits_torn hki h.valid.fits_index hfit) hir]
  simp only [hvalid, hload, hguard, hisize, hgd, hgi, guard_true, Option.bind_eq_bind, Option.bind_some,
    Option.pure_def, ne_eq, not_false_eq_true, and_self]

/-- Part of the data header is written. -/
theorem Growing.writeData (h : Growing d header v records) {new : List UInt8}
    (hnew : (header.withCapacity v).serialize = some new) {n : ℕ} (hn : n ≤ kSpace) :
    Growing (d.setFile .data (d.data.write 0 n fun i => new.getD i 0)) header v records := by
  have hsize : (d.data.write 0 n fun i => new.getD i 0).size = d.data.size := by
    have := h.data_ge
    rw [File.size_write]
    split_ifs <;> omega
  have hread := File.read_write_front (f := d.data) hn (HeaderTrailer.length_serialize hnew).ge
  exact ⟨h.toBody.front hsize rfl fun _ _ => rfl, h.valid, h.target, h.grows, hread ▸ h.dataRegion.write hnew n,
    h.indexRegion, h.intent⟩

/-- Part of the index header is written. -/
theorem Growing.writeIndex (h : Growing d header v records) {new : List UInt8}
    (hnew : ((indexHeader header).withCapacity v).serialize = some new) {n : ℕ} (hn : n ≤ kSpace) :
    Growing (d.setFile .index (d.index.write 0 n fun i => new.getD i 0)) header v records := by
  have hsize : (d.index.write 0 n fun i => new.getD i 0).size = d.index.size := by
    have := h.index_ge
    rw [File.size_write]
    split_ifs <;> omega
  have hread := File.read_write_front (f := d.index) hn (HeaderTrailer.length_serialize hnew).ge
  have hbytes : ∀ i, kSpace ≤ i → (d.index.write 0 n fun i => new.getD i 0).byte i = d.index.byte i :=
    fun i hi => File.byte_write_of_not (by omega)
  exact ⟨h.toBody.front rfl hsize hbytes, h.valid, h.target, h.grows, h.dataRegion, hread ▸ h.indexRegion.write hnew n,
    h.intent⟩

theorem Growing.passed (h : Growing d header v records) : Growing d.passed header v records :=
  ⟨h.toBody.front rfl rfl fun _ _ => rfl, h.valid, h.target, h.grows, h.dataRegion, h.indexRegion, h.intent⟩

/-- Both headers are new: the intent may go. -/
theorem Growing.retire (h : Growing d header v records)
    (hdata : (header.withCapacity v).serialize = some (d.data.read 0 kSpace))
    (hindex : ((indexHeader header).withCapacity v).serialize = some (d.index.read 0 kSpace)) :
    LogOn { d with growIntent := none } (header.withCapacity v) records := by
  have hbody : Body { d with growIntent := none } (header.virtualSize / kAlignment) records :=
    h.toBody.front rfl rfl fun _ _ => rfl
  exact ⟨hbody.mono (Nat.div_le_div_right h.grows.le), h.target, hdata, hindex, rfl⟩

end Growing

/-! ### Rolling forward -/

/-- Only the headers, the intent and the flags of the pair move. -/
def headersOnly : Guarantee FilePair where
  rel p p' := (kSpace ≤ p.disk.data.size → p'.disk.data.size = p.disk.data.size) ∧
    (kSpace ≤ p.disk.index.size → p'.disk.index.size = p.disk.index.size) ∧
    (∀ i, kSpace ≤ i → p'.disk.data.byte i = p.disk.data.byte i) ∧
    (∀ i, kSpace ≤ i → p'.disk.index.byte i = p.disk.index.byte i) ∧
    p'.dataBytes = p.dataBytes ∧ p'.indexBytes = p.indexBytes ∧ p'.mappings = p.mappings ∧
    p'.liveRanges = p.liveRanges
  refl _ := ⟨fun _ => rfl, fun _ => rfl, fun _ _ => rfl, fun _ _ => rfl, rfl, rfl, rfl, rfl⟩
  trans {p p' p''} h h' := by
    obtain ⟨h1, h2, h3, h4, h5, h6, h7, h8⟩ := h
    obtain ⟨g1, g2, g3, g4, g5, g6, g7, g8⟩ := h'
    refine ⟨fun hs => ?_, fun hs => ?_, fun i hi => (g3 i hi).trans (h3 i hi), fun i hi => (g4 i hi).trans (h4 i hi),
      g5.trans h5, g6.trans h6, g7.trans h7, g8.trans h8⟩
    · have := h1 hs
      rw [g1 (this ▸ hs), this]
    · have := h2 hs
      rw [g2 (this ▸ hs), this]

variable {p : FilePair}

variable {E : ℤ → FilePair → Prop} {Q : Unit → FilePair → Prop}

/-- A system call that changes no file. -/
theorem wp_sys_call
    (hQ : Q () { p with disk := p.disk.passed }) (hE : ∀ e, 0 < e → E e { p with disk := p.disk.passed }) :
    wp (sys Disk.call) Q E p := by
  rw [sys, wp_zoom]
  unfold wp Disk.call
  cases p.disk.faults p.disk.tick with
  | none => exact hQ
  | some f => exact hE f.errno f.pos

variable {bs : List UInt8} {a : Artifact}

/-- A write of a byte string, complete or not. -/
theorem wp_writeBytes {off : ℕ} (hsmall : off + bs.length ≤ kMaxFileSize)
    (hQ : Q () { p with disk := (p.disk.setFile a ((p.disk.file a).write off bs.length fun i => bs.getD i 0)).passed })
    (hE : ∀ e n, 0 < e → n ≤ bs.length →
      E e { p with disk := (p.disk.setFile a ((p.disk.file a).write off n fun i => bs.getD i 0)).passed }) :
    wp (writeBytes a off bs) Q E p := by
  rw [writeBytes, sys, wp_zoom]
  unfold wp Disk.write
  cases p.disk.faults p.disk.tick with
  | none =>
    simp only [if_neg (Nat.not_lt.mpr hsmall)]
    exact hQ
  | some f => exact hE f.errno _ f.pos (min_le_right _ _)

/-- A write that meets no fault. -/
theorem wp_sys_write {off n : ℕ} {src : Buf} (hf : p.disk.faults p.disk.tick = none) (hs : off + n ≤ kMaxFileSize) :
    wp (sys (Disk.write a off n src)) Q E p
      = Q () { p with disk := (p.disk.setFile a ((p.disk.file a).write off n src)).passed } := by
  rw [sys, wp_zoom]
  unfold wp Disk.write
  rw [hf]
  simp only [if_neg (Nat.not_lt.mpr hs)]

variable {records : List SegmentMapping} {v : ℕ} {header : HeaderTrailer}

/-- **Rolling forward** ends with both new headers and no intent; a failure leaves a directory of the same grow, or
the grown one. -/
theorem rollForward_spec {raw : List UInt8}
    (h : Growing p.disk header v records) (hraw : p.disk.growIntent = some raw) :
    wp (rollForward raw (header.withCapacity v))
      (fun _ p' => LogOn p'.disk (header.withCapacity v) records ∧ p'.header = header.withCapacity v ∧
        p'.poisoned = false ∧ p'.growthPending = false)
      (fun _ p' => (Growing p'.disk header v records ∨ LogOn p'.disk (header.withCapacity v) records) ∧
        p'.header = header.withCapacity v ∧ p'.poisoned = true ∧ p'.growthPending = true) p := by
  obtain ⟨data, index, hdata, hindex, hintent⟩ := h.intent
  obtain rfl := Option.some.inj (hintent.symm.trans hraw)
  have hdl := HeaderTrailer.length_serialize hdata
  have hil := HeaderTrailer.length_serialize hindex
  obtain ⟨-, -, -, hfd, hfi, -⟩ := growBytes_fields header.virtualSize hdl hil
  have hsmall : 0 + kSpace ≤ kMaxFileSize := by decide
  unfold rollForward
  rw [wp_bind, wp_modify, hfd, hfi, wp_bind]
  refine wp_writeBytes (hdl.symm ▸ hsmall) ?_ fun e n _ hn => ⟨.inl (h.writeData hdata (hdl ▸ hn)).passed, rfl, rfl, rfl⟩
  have h1 := (h.writeData hdata hdl.le).passed
  have hr1 : (p.disk.data.write 0 data.length fun i => data.getD i 0).read 0 kSpace = data := by
    rw [← hdl]
    exact File.read_writeBytes
  rw [wp_bind]
  refine wp_writeBytes (hil.symm ▸ hsmall) ?_ fun e n _ hn => ⟨.inl (h1.writeIndex hindex (hil ▸ hn)).passed, rfl, rfl, rfl⟩
  have h2 := (h1.writeIndex hindex hil.le).passed
  have hr2 : (p.disk.index.write 0 index.length fun i => index.getD i 0).read 0 kSpace = index := by
    rw [← hil]
    exact File.read_writeBytes
  rw [wp_bind]
  refine wp_sys_call ?_ fun e _ => ⟨.inl h2.passed, rfl, rfl, rfl⟩
  rw [wp_bind]
  refine wp_sys_call ?_ fun e _ => ⟨.inl h2.passed.passed, rfl, rfl, rfl⟩
  rw [wp_bind, wp_modify, wp_bind]
  have hdone := h2.passed.passed.retire (hdata.trans (congrArg some hr1.symm)) (hindex.trans (congrArg some hr2.symm))
  refine wp_sys_call ?_ fun e _ => ⟨.inr hdone.passed, rfl, rfl, rfl⟩
  rw [wp_modify]
  exact ⟨hdone.passed, rfl, rfl, rfl⟩

/-- **Recovery** of a published grow. -/
theorem recoverGrow_spec (h : Growing p.disk header v records) :
    wp recoverGrow
      (fun _ p' => LogOn p'.disk (header.withCapacity v) records ∧ p'.header = header.withCapacity v ∧
        p'.poisoned = false ∧ p'.growthPending = false)
      (fun _ p' => (Growing p'.disk header v records ∨ LogOn p'.disk (header.withCapacity v) records) ∧
        p'.header = header.withCapacity v ∧ p'.poisoned = true ∧ p'.growthPending = true) p := by
  obtain ⟨data, index, hdata, hindex, hintent⟩ := h.intent
  unfold recoverGrow
  rw [wp_bind, wp_gets, hintent]
  show wp (gets disk >>= _) _ _ p
  rw [wp_bind, wp_gets, wp_bind, wp_need_some (checkGrow_of_growing h hintent)]
  exact rollForward_spec h hintent

/-- Without faults nothing stops a write of a header. -/
theorem wp_writeBytes_ok (hf : p.disk.faults p.disk.tick = none) (hbs : bs.length = kSpace)
    (hQ : Q () { p with disk := (p.disk.setFile a ((p.disk.file a).write 0 bs.length fun i => bs.getD i 0)).passed }) :
    wp (writeBytes a 0 bs) Q E p := by
  rw [writeBytes, wp_sys_write hf (by rw [hbs]; decide)]
  exact hQ

theorem wp_sys_call_ok (hf : p.disk.faults p.disk.tick = none)
    (hQ : Q () { p with disk := p.disk.passed }) : wp (sys Disk.call) Q E p := by
  rw [sys, wp_zoom]
  unfold wp Disk.call
  rw [hf]
  exact hQ

/-- **Recovery stops only at a fault.** -/
theorem recoverGrow_faults (h : Growing p.disk header v records) :
    wp recoverGrow (fun _ _ => True) (fun _ _ => ∃ n, p.disk.faults n ≠ none) p := by
  by_cases hf : ∃ n, p.disk.faults n ≠ none
  · exact wp_mono wp_trivial (fun _ _ _ => trivial) fun _ _ _ => hf
  · simp only [not_exists, not_not] at hf
    obtain ⟨data, index, hdata, hindex, hintent⟩ := h.intent
    have hdl := HeaderTrailer.length_serialize hdata
    have hil := HeaderTrailer.length_serialize hindex
    obtain ⟨-, -, -, hfd, hfi, -⟩ := growBytes_fields header.virtualSize hdl hil
    unfold recoverGrow
    rw [wp_bind, wp_gets, hintent]
    show wp (gets disk >>= _) _ _ p
    rw [wp_bind, wp_gets, wp_bind, wp_need_some (checkGrow_of_growing h hintent)]
    unfold rollForward
    rw [wp_bind, wp_modify, hfd, hfi, wp_bind]
    refine wp_writeBytes_ok (hf _) hdl ?_
    rw [wp_bind]
    refine wp_writeBytes_ok (hf _) hil ?_
    rw [wp_bind]
    refine wp_sys_call_ok (hf _) ?_
    rw [wp_bind]
    refine wp_sys_call_ok (hf _) ?_
    rw [wp_bind, wp_modify, wp_bind]
    exact wp_sys_call_ok (hf _) trivial

/-! ### What else moves -/

theorem respects_headers_call : Respects headersOnly (sys Disk.call) := by
  intro p
  exact wp_sys_call (headersOnly.refl p) fun e he => ⟨he, headersOnly.refl p⟩

theorem respects_headers_flags {f : FilePair → FilePair}
    (h : ∀ p, (f p).disk.data = p.disk.data ∧ (f p).disk.index = p.disk.index ∧ (f p).dataBytes = p.dataBytes ∧
      (f p).indexBytes = p.indexBytes ∧ (f p).mappings = p.mappings ∧ (f p).liveRanges = p.liveRanges) :
    Respects headersOnly (modify f) := by
  intro p
  obtain ⟨hd, hi, h1, h2, h3, h4⟩ := h p
  rw [wp_modify]
  refine ⟨fun _ => ?_, fun _ => ?_, fun _ _ => ?_, fun _ _ => ?_, h1, h2, h3, h4⟩
  · rw [hd]
  · rw [hi]
  · rw [hd]
  · rw [hi]

theorem respects_headers_write (hbs : bs.length ≤ kSpace) :
    Respects headersOnly (writeBytes a 0 bs) := by
  have hrel : ∀ (p : FilePair) (n : ℕ), n ≤ bs.length → headersOnly.rel p
      { p with disk := (p.disk.setFile a ((p.disk.file a).write 0 n fun i => bs.getD i 0)).passed } := by
    intro p n hn
    have hsize : ∀ f : File, kSpace ≤ f.size → (f.write 0 n fun i => bs.getD i 0).size = f.size := by
      intro f hf
      rw [File.size_write]
      split_ifs <;> omega
    have hbyte : ∀ (f : File) (i : ℕ), kSpace ≤ i → (f.write 0 n fun i => bs.getD i 0).byte i = f.byte i :=
      fun f i hi => File.byte_write_of_not (by omega)
    cases a with
    | data => exact ⟨hsize _, fun _ => rfl, hbyte _, fun _ _ => rfl, rfl, rfl, rfl, rfl⟩
    | index => exact ⟨fun _ => rfl, hsize _, fun _ _ => rfl, hbyte _, rfl, rfl, rfl, rfl⟩
  intro p
  refine wp_writeBytes ?_ (hrel p _ le_rfl) fun e n he hn => ⟨he, hrel p n hn⟩
  have : kSpace ≤ kMaxFileSize := by decide
  omega

/-- Rolling forward moves headers only. -/
theorem respects_headers_rollForward (raw : List UInt8) (target : HeaderTrailer) :
    Respects headersOnly (rollForward raw target) := by
  have hlen : ∀ off, (field raw off kSpace).length ≤ kSpace := fun off => by
    rw [field, List.length_take]
    exact min_le_left _ _
  refine Respects.bind (respects_headers_flags fun _ => ⟨rfl, rfl, rfl, rfl, rfl, rfl⟩) fun _ => ?_
  refine (respects_headers_write (hlen _)).bind fun _ => ?_
  refine (respects_headers_write (hlen _)).bind fun _ => ?_
  refine respects_headers_call.bind fun _ => respects_headers_call.bind fun _ => ?_
  refine Respects.bind (respects_headers_flags fun _ => ⟨rfl, rfl, rfl, rfl, rfl, rfl⟩) fun _ => ?_
  exact respects_headers_call.bind fun _ => respects_headers_flags fun _ => ⟨rfl, rfl, rfl, rfl, rfl, rfl⟩

/-- **Recovery** moves headers only. -/
theorem respects_headers_recoverGrow : Respects headersOnly recoverGrow := by
  refine (respects_gets _).bind fun intent => ?_
  cases intent with
  | none => exact respects_pure ()
  | some raw =>
    refine (respects_gets _).bind fun d => respects_need_bind (by simp [einval]) fun target _ => ?_
    exact respects_headers_rollForward raw target

end FilePair

end OverlayBD
