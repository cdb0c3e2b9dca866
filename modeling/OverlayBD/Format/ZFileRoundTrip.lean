import OverlayBD.Format.ZFileWriter

/-!
# Reading a written ZFile back

* `serves_written` — the file serves every request for its blocks, and their checksums are right.
* `exact_of_decodes`, `decodes_of_exact` — reads are exact if and only if every block decodes from what the codec is
  given.
* `zfile_roundtrip_iff` — what the writer wrote is accepted and read back exactly, if and only if the reader takes its
  index: not too many blocks, no group of blocks too long for a 16-bit delta, and checksums that are either absent or
  asked for.
* `readerTakes_of_bound` — block sizes whose bound rules out a delta that is too large.
* `small_blocks_are_refused` — a file of short incompressible blocks, written and refused.
-/

namespace OverlayBD.ZFile

open Bytes Errno Effect JumpTable

/-! ### The records in the file -/

/-- The blob a file is: full answers inside it, short ones at its end. -/
def fileSource (f : File) : BlobSource where
  pread _ count off := ⟨(min count (f.size - off) : ℕ), fun k => f.byte (off + k), by
    exact_mod_cast min_le_left _ _⟩

section Records

variable {codec : BlockCodec} {opts : ZFileWriteOptions} {input : List UInt8}

/-- Start of block `i` in the file. -/
def recordOffset (codec : BlockCodec) (opts : ZFileWriteOptions) (input : List UInt8) (i : ℕ) : ℕ :=
  offsetOf kSpace (recordSizes codec opts input) i

theorem recordOffset_succ {i : ℕ} (hi : i < blockCount opts.blockSize input) :
    recordOffset codec opts input (i + 1)
      = recordOffset codec opts input i + (recordAt codec opts input i).length := by
  rw [recordOffset, offsetOf_succ, recordOffset, List.getD_eq_getElem _ _ (by simpa using hi)]
  simp [recordSizes, records]

/-- **A record in the file.** -/
theorem read_record {i : ℕ} (hi : i < blockCount opts.blockSize input) :
    (written codec opts input).read (recordOffset codec opts input i) (recordAt codec opts input i).length
      = recordAt codec opts input i := by
  have hlen : i < (records codec opts input).length := by simpa [records] using hi
  have hget : (records codec opts input)[i] = recordAt codec opts input i := by simp [records]
  have hbody : writtenBody codec opts input = ((records codec opts input).take i).flatten ++
      (recordAt codec opts input i ++ ((records codec opts input).drop (i + 1)).flatten) := by
    rw [writtenBody, ← hget, ← List.flatten_cons, ← List.flatten_append, ← List.drop_eq_getElem_cons hlen,
      List.take_append_drop]
  have hread := File.read_ofBytes_append
    ((writtenHeader codec opts input).serialize ++ ((records codec opts input).take i).flatten)
    (recordAt codec opts input i) (((records codec opts input).drop (i + 1)).flatten ++
      (encodeIndex (recordSizes codec opts input) ++ (writtenTrailer codec opts input).serialize))
  have hpos : ((writtenHeader codec opts input).serialize ++ ((records codec opts input).take i).flatten).length
      = recordOffset codec opts input i := by
    rw [List.length_append, HeaderTrailer.length_serialize, List.length_flatten, List.map_take]
    rfl
  rw [hpos] at hread
  rw [written, image, hbody]
  simpa only [List.append_assoc] using hread

theorem byte_record {i k : ℕ} (hi : i < blockCount opts.blockSize input)
    (hk : k < (recordAt codec opts input i).length) :
    (written codec opts input).byte (recordOffset codec opts input i + k) = (recordAt codec opts input i).getD k 0 := by
  have hget : ((written codec opts input).read (recordOffset codec opts input i)
      (recordAt codec opts input i).length)[k]? = (recordAt codec opts input i)[k]? := by rw [read_record hi]
  rw [File.getElem?_read hk, List.getElem?_eq_getElem hk] at hget
  rw [List.getD_eq_getElem _ _ hk]
  exact Option.some.inj hget

/-- The bytes of the file in a buffer. -/
def Holds (f : File) (base len : ℕ) (win : Buf) : Prop := ∀ k, k < len → win k = f.byte (base + k)

/-- **A piece of a record in a window.** -/
theorem Holds.slice_record {base len i p m : ℕ} {win : Buf} (h : Holds (written codec opts input) base len win)
    (hi : i < blockCount opts.blockSize input) (hbase : base ≤ recordOffset codec opts input i)
    (hend : recordOffset codec opts input (i + 1) ≤ base + len)
    (hp : p + m ≤ (recordAt codec opts input i).length) :
    win.slice (recordOffset codec opts input i - base + p) m = ((recordAt codec opts input i).drop p).take m := by
  rw [recordOffset_succ hi] at hend
  refine List.ext_getElem (by simp [Buf.slice]; omega) fun k hk _ => ?_
  have hk' : k < m := by simpa [Buf.slice] using hk
  simp only [Buf.slice, List.getElem_map, List.getElem_range, List.getElem_take, List.getElem_drop]
  rw [h _ (by omega), show base + (recordOffset codec opts input i - base + p + k)
      = recordOffset codec opts input i + (p + k) by omega, byte_record hi (by omega),
    List.getD_eq_getElem _ _ (by omega)]

/-- What the file opens as. -/
def openedAs (codec : BlockCodec) (opts : ZFileWriteOptions) (input : List UInt8) (verify : Bool) (jump : JumpTable) :
    ZFileSource := ⟨writtenTrailer codec opts input, jump, opts.verify && verify, opts.blockSize⟩

/-- What the codec is given for block `i`: without the checksum only if the reader verifies. -/
def handed (codec : BlockCodec) (opts : ZFileWriteOptions) (input : List UInt8) (verify : Bool) (i : ℕ) : List UInt8 :=
  if opts.verify && verify then compAt codec opts input i else recordAt codec opts input i

section Reader

variable {verify : Bool} {jump : JumpTable} (hbs : ValidBlockSize opts.blockSize)
  (hjump : build (recordSizes codec opts input) kSpace opts.blockSize opts.verify = .ok jump)
include hbs hjump

/-- The table covers the file. -/
theorem geometry_written :
    Geometry (openedAs codec opts input verify jump) (blockCount opts.blockSize input)
      (kSpace + (writtenBody codec opts input).length) (recordOffset codec opts input) := by
  have hpos := Nat.pos_of_ne_zero hbs.1
  obtain ⟨-, hfits, hget⟩ := build_spec hjump
  rw [length_recordSizes] at hfits hget
  refine ⟨hget, hpos, fun _ _ h => offsetOf_mono _ _ h, fun i hi hv => ?_, ?_, ?_, fun i hi => ?_⟩
  · obtain ⟨hopt, -⟩ : opts.verify = true ∧ verify = true := by simpa [openedAs] using hv
    have hsize := (hfits i hi).size
    rw [if_pos hopt] at hsize
    rw [recordOffset, recordOffset, offsetOf_succ]
    omega
  · show (writtenTrailer codec opts input).originalFileSize ≤ _
    rw [writtenTrailer_originalFileSize]
    exact length_le_blockCount hpos
  · rw [recordOffset, offsetOf_zero]
  · change i * opts.blockSize < (writtenTrailer codec opts input).originalFileSize at hi
    rw [writtenTrailer_originalFileSize, ← lt_blockCount_iff hpos] at hi
    refine (offsetOf_mono _ _ (Nat.succ_le_of_lt hi)).trans_eq ?_
    rw [offsetOf, List.take_of_length_le length_recordSizes.le, length_writtenBody]

omit hbs hjump in
theorem compLen_eq {i : ℕ} (hi : i < blockCount opts.blockSize input) :
    (openedAs codec opts input verify jump).compLen (recordOffset codec opts input i)
      (recordOffset codec opts input (i + 1)) = (handed codec opts input verify i).length := by
  rw [recordOffset_succ hi, ZFileSource.compLen, Nat.add_sub_cancel_left]
  show (if (opts.verify && verify) = true then _ else _) = _
  unfold handed
  split_ifs with hv
  · obtain ⟨hopt, -⟩ : opts.verify = true ∧ verify = true := by simpa using hv
    simp [recordAt, blockRecord, hopt, blockCrc]
  · rfl

omit hbs hjump in
/-- The codec's input is the front of the record. -/
theorem handed_isPrefix (i : ℕ) : handed codec opts input verify i <+: recordAt codec opts input i := by
  unfold handed
  split_ifs with hv
  · unfold recordAt blockRecord
    split_ifs
    · exact List.prefix_append _ _
    · exact List.prefix_rfl
  · exact List.prefix_rfl

omit hjump in
/-- **Serving the file.**  Only a block that does not decode from what the codec is given is refused. -/
theorem serves_written :
    Serves (Holds (written codec opts input))
      (fun i bytes => codec.decode (handed codec opts input verify i) (blockAt opts.blockSize input i).length = .ok bytes)
      (∃ i, i < blockCount opts.blockSize input ∧ ∃ e,
        codec.decode (handed codec opts input verify i) (blockAt opts.blockSize input i).length = .error e)
      (openedAs codec opts input verify jump) (kSpace + (writtenBody codec opts input).length)
      (recordOffset codec opts input) (fileSource (written codec opts input)) codec := by
  have hpos := Nat.pos_of_ne_zero hbs.1
  have hin : ∀ i, i * (openedAs codec opts input verify jump).blockSize
      < (openedAs codec opts input verify jump).ht.originalFileSize → i < blockCount opts.blockSize input := by
    intro i hi
    change i * opts.blockSize < (writtenTrailer codec opts input).originalFileSize at hi
    rwa [writtenTrailer_originalFileSize, ← lt_blockCount_iff hpos] at hi
  have hblock : ∀ i, (openedAs codec opts input verify jump).blockLen i = (blockAt opts.blockSize input i).length := by
    intro i
    show min opts.blockSize ((writtenTrailer codec opts input).originalFileSize - i * opts.blockSize) = _
    rw [writtenTrailer_originalFileSize, length_blockAt]
  -- the codec's input is a prefix of the record
  have hslice : ∀ i base len win, i < blockCount opts.blockSize input → Holds (written codec opts input) base len win →
      base ≤ recordOffset codec opts input i → recordOffset codec opts input (i + 1) ≤ base + len →
      win.slice (recordOffset codec opts input i - base) (handed codec opts input verify i).length
        = handed codec opts input verify i := by
    intro i base len win hi hwin hbase hend
    have hpiece := hwin.slice_record (p := 0) hi hbase hend
      (show 0 + (handed codec opts input verify i).length ≤ _ by rw [Nat.zero_add]; exact (handed_isPrefix i).length_le)
    rw [Nat.add_zero, List.drop_zero] at hpiece
    rw [hpiece, ← List.prefix_iff_eq_take.mp (handed_isPrefix i)]
  refine ⟨fun _ _ _ _ _ _ => rfl, fun call len off hend hne => ?_, fun i base len win hi hwin hbase hend hv hne => ?_,
    fun i base len win bytes hi hwin hbase hend hdec => ?_, fun i base len win e hi hwin hbase hend hdec => ?_⟩
  · refine absurd ?_ hne
    show ((min len ((written codec opts input).size - off) : ℕ) : ℤ) = len
    rw [written, File.size_ofBytes, length_image]
    omega
  · obtain ⟨hopt, hver⟩ : opts.verify = true ∧ verify = true := by simpa [openedAs] using hv
    have hhanded : handed codec opts input verify i = compAt codec opts input i := by simp [handed, hopt, hver]
    have hrecord : recordAt codec opts input i = compAt codec opts input i ++ blockCrc (compAt codec opts input i) := by
      simp [recordAt, blockRecord, hopt]
    have hsum := hwin.slice_record (p := (compAt codec opts input i).length) (m := 4) (hin i hi) hbase hend
      (by rw [hrecord, List.length_append, blockCrc, length_leBytes])
    rw [hrecord, List.drop_left, blockCrc, List.take_of_length_le (by rw [length_leBytes])] at hsum
    rw [compLen_eq (hin i hi), hslice i base len win (hin i hi) hwin hbase hend, hhanded, hsum,
      leNat_leBytes_of_lt (UInt32.toNat_lt _)] at hne
    exact absurd rfl hne
  · rw [compLen_eq (hin i hi), hblock, hslice i base len win (hin i hi) hwin hbase hend] at hdec
    exact hdec
  · rw [compLen_eq (hin i hi), hblock, hslice i base len win (hin i hi) hwin hbase hend] at hdec
    exact ⟨i, hin i hi, e, hdec⟩

/-- A cache of blocks decoded from this file. -/
def SoundCache (codec : BlockCodec) (opts : ZFileWriteOptions) (input : List UInt8) (verify : Bool) (c : Cache) : Prop :=
  ∀ i bytes, some (i, bytes) ∈ c.decoded →
    codec.decode (handed codec opts input verify i) (blockAt opts.blockSize input i).length = .ok bytes

/-- A read of the file: the range comes from decoded blocks, or some block does not decode. -/
theorem pread_written (alloc : Bool) (count off : ℕ) (out : Buf) {c : Cache}
    (hc : SoundCache codec opts input verify c) :
    wp (pread (openedAs codec opts input verify jump) (fileSource (written codec opts input)) codec alloc count off)
      (fun d s' => d = min count (input.length - off) ∧ SoundCache codec opts input verify s'.cache ∧
        ∀ k, k < d → ∃ bytes, codec.decode (handed codec opts input verify ((off + k) / opts.blockSize))
          (blockAt opts.blockSize input ((off + k) / opts.blockSize)).length = .ok bytes ∧
          s'.out k = bytes ((off + k) % opts.blockSize))
      (fun _ s' => SoundCache codec opts input verify s'.cache ∧ ∃ i, i < blockCount opts.blockSize input ∧ ∃ e,
        codec.decode (handed codec opts input verify i) (blockAt opts.blockSize input i).length = .error e)
      ⟨out, [], c, 0⟩ := by
  have hsize : (openedAs codec opts input verify jump).ht.originalFileSize = input.length :=
    writtenTrailer_originalFileSize
  have hspec := pread_spec (s := ⟨out, [], c, 0⟩) (geometry_written hbs hjump) (serves_written hbs) alloc count off
    ⟨by simp, hc⟩
  rw [hsize] at hspec
  exact wp_mono hspec (fun d s' h => ⟨h.1, h.2.1.cache, h.2.2⟩) fun _ s' h => ⟨h.1.cache, h.2⟩

end Reader

end Records

/-! ### The round trip -/

/-- The caches of a source that has served any sequence of reads. -/
inductive Cached (z : ZFileSource) (src : BlobSource) (codec : BlockCodec) : Cache → Prop
  | opened : Cached z src codec Cache.empty
  | read {c : Cache} (alloc : Bool) (count off : ℕ) (out : Buf) :
      Cached z src codec c → Cached z src codec (pread z src codec alloc count off ⟨out, [], c, 0⟩).2.cache

/-- Every read returns exactly the bytes of `input` in its range. -/
def Exact (z : ZFileSource) (src : BlobSource) (codec : BlockCodec) (input : List UInt8) (c : Cache) : Prop :=
  ∀ (alloc : Bool) (count off : ℕ) (out : Buf), ∃ s',
    pread z src codec alloc count off ⟨out, [], c, 0⟩ = (.ok (min count (input.length - off)), s') ∧
      ∀ k, k < min count (input.length - off) → s'.out k = input.getD (off + k) 0

/-- **The round trip**: the file is written and accepted, and all reads are exact. -/
def RoundTrips (codec : BlockCodec) (opts : ZFileWriteOptions) (input : List UInt8) (available : ℕ → Bool)
    (verify : Bool) : Prop :=
  ∃ out z, writeZfile codec opts input available = .ok out ∧
    openFile available (File.ofBytes out) verify = .ok z ∧
    ∀ c, Cached z (fileSource (File.ofBytes out)) codec c → Exact z (fileSource (File.ofBytes out)) codec input c

/-- **What the reader takes**: no more than `kMaxIndexSize` blocks; in each group of `65536 / block_size` blocks, those
before the last one of the group shorter together than the largest delta; and checksums only if the reader verifies
them, unless the codec decodes a block with its checksum behind it. -/
structure ReaderTakes (codec : BlockCodec) (opts : ZFileWriteOptions) (input : List UInt8) (verify : Bool) : Prop where
  count : blockCount opts.blockSize input ≤ kMaxIndexSize
  deltas : ∀ i, i < blockCount opts.blockSize input → (i + 1) % ((kUinttypeMax + 1) / opts.blockSize) ≠ 0 →
    offsetOf 0 (recordSizes codec opts input) (i + 1) -
      offsetOf 0 (recordSizes codec opts input) (groupStart ((kUinttypeMax + 1) / opts.blockSize) (i + 1)) < kUinttypeMax
  checksums : opts.verify = true → verify = false → ∀ i, i < blockCount opts.blockSize input →
    Decodes codec (compAt codec opts input i ++ blockCrc (compAt codec opts input i)) (blockAt opts.blockSize input i)

section RoundTrip

variable {codec : BlockCodec} {opts : ZFileWriteOptions} {input : List UInt8} {verify : Bool} {available : ℕ → Bool}

/-- The table is built exactly if the deltas fit: records are longer than their checksum. -/
theorem build_recordSizes_iff (hl : Lossless codec) (hbs : ValidBlockSize opts.blockSize) :
    (∃ jump, build (recordSizes codec opts input) kSpace opts.blockSize opts.verify = .ok jump) ↔
      ∀ i, i < blockCount opts.blockSize input → (i + 1) % ((kUinttypeMax + 1) / opts.blockSize) ≠ 0 →
        offsetOf 0 (recordSizes codec opts input) (i + 1) -
          offsetOf 0 (recordSizes codec opts input) (groupStart ((kUinttypeMax + 1) / opts.blockSize) (i + 1))
            < kUinttypeMax := by
  rw [build_ok_iff, length_recordSizes]
  constructor
  · rintro ⟨-, hfits⟩ i hi
    exact (hfits i hi).delta
  · intro hdelta
    refine ⟨hbs, fun i hi => ⟨?_, hdelta i hi⟩⟩
    have hget : (recordSizes codec opts input).getD i 0 = (recordAt codec opts input i).length := by
      rw [List.getD_eq_getElem _ _ (by simpa using hi)]
      simp [recordSizes, records]
    rw [hget]
    exact (length_recordAt hl hbs hi).1

/-- A delta too large for the table. -/
theorem openFile_written_ne (hl : Lossless codec) (hbs : ValidBlockSize opts.blockSize)
    (halgo : available opts.algo.toNat = true) (hin : input.length < 2 ^ 64)
    (hcount : blockCount opts.blockSize input ≤ kMaxIndexSize) {i : ℕ} (hi : i < blockCount opts.blockSize input)
    (hmod : (i + 1) % ((kUinttypeMax + 1) / opts.blockSize) ≠ 0)
    (hlarge : kUinttypeMax ≤ offsetOf 0 (recordSizes codec opts input) (i + 1) -
      offsetOf 0 (recordSizes codec opts input) (groupStart ((kUinttypeMax + 1) / opts.blockSize) (i + 1)))
    {z : ZFileSource} (hopen : openFile available (written codec opts input) verify = .ok z) : False := by
  rw [openFile_written hl hbs halgo hin hcount] at hopen
  cases hjump : build (recordSizes codec opts input) kSpace opts.blockSize opts.verify with
  | error e =>
    rw [hjump] at hopen
    cases hopen
  | ok jump => exact absurd ((build_recordSizes_iff hl hbs).mp ⟨jump, hjump⟩ i hi hmod) (Nat.not_lt_of_le hlarge)

/-- Byte `off + k` of the input lies in the block the reader looks at. -/
theorem getD_blockAt {bs p : ℕ} (hbs : 0 < bs) (hp : p < input.length) :
    p % bs < (blockAt bs input (p / bs)).length ∧ (blockAt bs input (p / bs)).getD (p % bs) 0 = input.getD p 0 := by
  have hsplit := Nat.div_add_mod' p bs
  have hmod := Nat.mod_lt p hbs
  have hlen : p % bs < (blockAt bs input (p / bs)).length := by
    rw [length_blockAt]
    omega
  refine ⟨hlen, ?_⟩
  rw [List.getD_eq_getElem _ _ hlen, List.getD_eq_getElem _ _ hp]
  simp only [blockAt, List.getElem_take, List.getElem_drop, hsplit]

/-- What the codec is given decodes. -/
theorem decodes_handed (hl : Lossless codec) (hbs : ValidBlockSize opts.blockSize)
    (h : ReaderTakes codec opts input verify) {i : ℕ} (hi : i < blockCount opts.blockSize input) :
    Decodes codec (handed codec opts input verify i) (blockAt opts.blockSize input i) := by
  have hplain := hl.decode _ _ (encode_blockAt hl hbs hi).1
  unfold handed
  cases hopt : opts.verify with
  | false => simpa [recordAt, blockRecord, hopt] using hplain
  | true =>
    cases hv : verify with
    | true => simpa using hplain
    | false => simpa [recordAt, blockRecord, hopt] using h.checksums hopt hv i hi

section Opened

variable {jump : JumpTable} (hbs : ValidBlockSize opts.blockSize)
  (hjump : build (recordSizes codec opts input) kSpace opts.blockSize opts.verify = .ok jump)
include hbs hjump

/-- Reads put decoded blocks of this file into the cache. -/
theorem sound_of_cached {c : Cache}
    (h : Cached (openedAs codec opts input verify jump) (fileSource (written codec opts input)) codec c) :
    SoundCache codec opts input verify c := by
  induction h with
  | opened =>
    intro i bytes hmem
    simp [Cache.empty] at hmem
  | read alloc count off out _ ih =>
    refine state_of_wp (P := fun s' : Ctx => SoundCache codec opts input verify s'.cache) ?_
    exact wp_mono (pread_written hbs hjump alloc count off out ih) (fun _ _ h => h.2.1) fun _ _ h => h.1

/-- **Reads are exact** if every block decodes. -/
theorem exact_of_decodes {c : Cache} (hc : SoundCache codec opts input verify c)
    (hdec : ∀ i, i < blockCount opts.blockSize input →
      Decodes codec (handed codec opts input verify i) (blockAt opts.blockSize input i)) :
    Exact (openedAs codec opts input verify jump) (fileSource (written codec opts input)) codec input c := by
  have hpos := Nat.pos_of_ne_zero hbs.1
  intro alloc count off out
  have hspec := pread_written hbs hjump alloc count off out hc
  unfold wp at hspec
  rcases hrun : pread (openedAs codec opts input verify jump) (fileSource (written codec opts input)) codec alloc count
    off ⟨out, [], c, 0⟩ with ⟨r, s'⟩
  rw [hrun] at hspec
  cases r with
  | error e =>
    obtain ⟨-, i, hi, e', hbad⟩ := hspec
    obtain ⟨bytes, hok, -⟩ := hdec i hi
    rw [hbad] at hok
    cases hok
  | ok d =>
    obtain ⟨rfl, -, hfilled⟩ := hspec
    refine ⟨s', rfl, fun k hk => ?_⟩
    obtain ⟨bytes, hok, hout⟩ := hfilled k hk
    have hp : off + k < input.length := by omega
    obtain ⟨hlen, hget⟩ := getD_blockAt hpos hp
    have hi : (off + k) / opts.blockSize < blockCount opts.blockSize input :=
      (lt_blockCount_iff hpos).mpr ((Nat.div_mul_le_self _ _).trans_lt hp)
    obtain ⟨bytes', hok', hbytes⟩ := hdec _ hi
    obtain rfl : bytes = bytes' := Except.ok.inj (hok.symm.trans hok')
    rw [hout, hbytes _ hlen, hget]

/-- **Only if every block decodes**: the read of one whole block returns what the codec made of it. -/
theorem decodes_of_exact
    (hexact : Exact (openedAs codec opts input verify jump) (fileSource (written codec opts input)) codec input
      Cache.empty) {i : ℕ} (hi : i < blockCount opts.blockSize input) :
    Decodes codec (handed codec opts input verify i) (blockAt opts.blockSize input i) := by
  have hpos := Nat.pos_of_ne_zero hbs.1
  have hin := (lt_blockCount_iff hpos).mp hi
  have hlen := length_blockAt opts.blockSize input i
  have hcount : min (blockAt opts.blockSize input i).length (input.length - i * opts.blockSize)
      = (blockAt opts.blockSize input i).length := by omega
  obtain ⟨s', hrun, hout⟩ := hexact false (blockAt opts.blockSize input i).length (i * opts.blockSize) (fun _ => 0)
  rw [hcount] at hrun hout
  have hspec := ok_of_wp (pread_written hbs hjump false (blockAt opts.blockSize input i).length (i * opts.blockSize)
    (fun _ => 0) (sound_of_cached hbs hjump .opened)) hrun
  have hdiv : ∀ k, k < (blockAt opts.blockSize input i).length → (i * opts.blockSize + k) / opts.blockSize = i ∧
      (i * opts.blockSize + k) % opts.blockSize = k := by
    intro k hk
    have hk' : k < opts.blockSize := by omega
    exact ⟨by rw [Nat.mul_comm, Nat.mul_add_div hpos, Nat.div_eq_of_lt hk', Nat.add_zero],
      by rw [Nat.mul_comm, Nat.mul_add_mod, Nat.mod_eq_of_lt hk']⟩
  have hfilled : ∀ k, k < (blockAt opts.blockSize input i).length → ∃ bytes,
      codec.decode (handed codec opts input verify i) (blockAt opts.blockSize input i).length = .ok bytes ∧
        s'.out k = bytes k := by
    intro k hk
    have := hspec.2.2 k hk
    rwa [(hdiv k hk).1, (hdiv k hk).2] at this
  obtain ⟨bytes, hok, -⟩ := hfilled 0 (by omega)
  refine ⟨bytes, hok, fun k hk => ?_⟩
  obtain ⟨bytes', hok', hk'⟩ := hfilled k hk
  obtain rfl : bytes = bytes' := Except.ok.inj (hok.symm.trans hok')
  have hp : i * opts.blockSize + k < input.length := by omega
  have hget := (getD_blockAt hpos hp).2
  rw [(hdiv k hk).1, (hdiv k hk).2] at hget
  rw [← hk', hout k hk, hget]

end Opened

/-- **When a ZFile round-trips.**  Whatever the input, the block size the writer accepts, the codec and the two verify
flags: what was written is accepted and read back exactly if and only if it is what the reader takes. -/
theorem zfile_roundtrip_iff (hl : Lossless codec) (hbs : ValidBlockSize opts.blockSize)
    (halgo : available opts.algo.toNat = true) (hin : input.length < 2 ^ 64) :
    RoundTrips codec opts input available verify ↔ ReaderTakes codec opts input verify := by
  have hpos := Nat.pos_of_ne_zero hbs.1
  constructor
  · rintro ⟨out, z, hout, hopen, hexact⟩
    obtain rfl := Except.ok.inj ((writeZfile_eq hl hbs halgo).symm.trans hout)
    change openFile available (written codec opts input) verify = .ok z at hopen
    have hcount : blockCount opts.blockSize input ≤ kMaxIndexSize := by
      by_contra hlarge
      rw [openFile_written_of_large verify hin hpos (by omega)] at hopen
      cases hopen
    rw [openFile_written hl hbs halgo hin hcount] at hopen
    cases hjump : build (recordSizes codec opts input) kSpace opts.blockSize opts.verify with
    | error e =>
      rw [hjump] at hopen
      cases hopen
    | ok jump =>
      rw [hjump] at hopen
      cases hopen
      refine ⟨hcount, (build_recordSizes_iff hl hbs).mp ⟨jump, hjump⟩, fun hopt hv i hi => ?_⟩
      have := decodes_of_exact hbs hjump (hexact _ .opened) hi
      simpa [handed, hopt, hv, recordAt, blockRecord] using this
  · intro h
    obtain ⟨jump, hjump⟩ := (build_recordSizes_iff hl hbs).mpr h.deltas
    refine ⟨_, openedAs codec opts input verify jump, writeZfile_eq hl hbs halgo, ?_, fun c hc => ?_⟩
    · show openFile available (written codec opts input) verify = _
      rw [openFile_written hl hbs halgo hin h.count, hjump]
      rfl
    · exact exact_of_decodes hbs hjump (sound_of_cached hbs hjump hc) fun i hi => decodes_handed hl hbs h hi

/-- Blocks of bounded size, one behind the other. -/
theorem offsetOf_add_le {sizes : List ℕ} {bound : ℕ} (h : ∀ e ∈ sizes, e ≤ bound) (start i d : ℕ) :
    offsetOf start sizes (i + d) ≤ offsetOf start sizes i + d * bound := by
  induction d with
  | zero => simp
  | succ d ih =>
    have hnext : sizes.getD (i + d) 0 ≤ bound := by
      rcases Nat.lt_or_ge (i + d) sizes.length with hlt | hge
      · rw [List.getD_eq_getElem _ _ hlt]
        exact h _ (List.getElem_mem hlt)
      · rw [List.getD_eq_default _ _ hge]
        exact Nat.zero_le bound
    rw [← Nat.add_assoc, offsetOf_succ, Nat.succ_mul]
    omega

/-- **Block sizes that always fit**: all but one block of a group, each as long as the codec may make it. -/
theorem readerTakes_of_bound (hl : Lossless codec) (hbs : ValidBlockSize opts.blockSize)
    (hcount : blockCount opts.blockSize input ≤ kMaxIndexSize) (hv : opts.verify = true → verify = true)
    (hbound : ((kUinttypeMax + 1) / opts.blockSize - 1) * (codec.compressBound opts.blockSize + 4) < kUinttypeMax) :
    ReaderTakes codec opts input verify := by
  refine ⟨hcount, fun i hi hmod => ?_, fun hopt hno => absurd (hv hopt) (by simp [hno])⟩
  generalize hg : (kUinttypeMax + 1) / opts.blockSize = g at hbound hmod ⊢
  have hpos : 0 < g := hg ▸ groupSize_pos hbs
  have hsizes : ∀ e ∈ recordSizes codec opts input, e ≤ codec.compressBound opts.blockSize + 4 := by
    intro e he
    simp only [recordSizes, records, List.mem_map, List.mem_range] at he
    obtain ⟨r, ⟨j, hj, rfl⟩, rfl⟩ := he
    refine (length_recordAt hl hbs hj).2.1.trans (Nat.add_le_add_left ?_ _)
    split_ifs <;> omega
  have hspan := offsetOf_add_le hsizes 0 (groupStart g (i + 1)) ((i + 1) % g)
  have hsplit : groupStart g (i + 1) + (i + 1) % g = i + 1 := Nat.div_add_mod' (i + 1) g
  have hle : (i + 1) % g * (codec.compressBound opts.blockSize + 4)
      ≤ (g - 1) * (codec.compressBound opts.blockSize + 4) :=
    Nat.mul_le_mul_right _ (Nat.le_sub_one_of_lt (Nat.mod_lt _ hpos))
  rw [hsplit] at hspan
  omega

end RoundTrip

/-- The codec that stores blocks as they are. -/
def storedCodec : BlockCodec where
  decode comp expected := if comp.length = expected then .ok fun k => comp.getD k 0 else .error einval
  encode block := .ok block
  compressBound n := n

theorem lossless_storedCodec : Lossless storedCodec where
  bound_mono := fun _ _ h => h
  bound_lt := fun n hn => by
    show n < 2 ^ 31
    omega
  encode := fun b hb => ⟨b, rfl, hb, le_rfl⟩
  decode := by
    intro b c hc
    obtain rfl : b = c := Except.ok.inj hc
    exact ⟨fun k => b.getD k 0, if_pos rfl, fun _ _ => rfl⟩

/-- Three bytes in one block, through the equivalence. -/
theorem zfile_roundtrip_iff_three_bytes : RoundTrips storedCodec {} [1, 2, 3] (fun algo => decide (algo = 1)) true :=
  (zfile_roundtrip_iff lossless_storedCodec (by decide) rfl (by decide)).mpr
    (readerTakes_of_bound lossless_storedCodec (by decide) (by decide) (fun _ => rfl) (by decide))

/-- Every record of a file of whole blocks that are stored. -/
theorem recordSizes_stored (opts : ZFileWriteOptions) (hbs : 0 < opts.blockSize) (hv : opts.verify = true) (n : ℕ) :
    recordSizes storedCodec opts (List.replicate (n * opts.blockSize) 0)
      = List.replicate n (opts.blockSize + 4) := by
  have hcount : blockCount opts.blockSize (List.replicate (n * opts.blockSize) 0) = n := by
    rw [blockCount, List.length_replicate, Nat.add_sub_assoc hbs, Nat.mul_comm, Nat.mul_add_div hbs,
      Nat.div_eq_of_lt (by omega), Nat.add_zero]
  refine List.eq_replicate_iff.mpr ⟨by rw [length_recordSizes, hcount], fun e he => ?_⟩
  simp only [recordSizes, records, List.mem_map, List.mem_range, hcount] at he
  obtain ⟨r, ⟨i, hi, rfl⟩, rfl⟩ := he
  have hroom : (i + 1) * opts.blockSize ≤ n * opts.blockSize := Nat.mul_le_mul_right _ hi
  rw [Nat.succ_mul] at hroom
  show (blockRecord opts.verify (blockAt opts.blockSize _ i)).length = _
  rw [blockRecord, if_pos hv, List.length_append, length_blockAt, List.length_replicate, blockCrc, length_leBytes]
  omega

/-- 255 records of 260 bytes do not fit the one group they are in. -/
theorem refused_of_sizes {input : List UInt8} (hlen : input.length = 255 * 256)
    (hsizes : recordSizes storedCodec { blockSize := 256 } input = List.replicate 255 260) :
    ∃ out, writeZfile storedCodec { blockSize := 256 } input (fun algo => decide (algo = 1)) = .ok out ∧
      ∀ verify z, openFile (fun algo => decide (algo = 1)) (File.ofBytes out) verify ≠ .ok z := by
  have hbs : ValidBlockSize 256 := by decide
  have hcount : blockCount 256 input = 255 := by rw [blockCount, hlen]
  refine ⟨_, writeZfile_eq lossless_storedCodec hbs rfl, fun verify z hopen => ?_⟩
  refine openFile_written_ne lossless_storedCodec hbs rfl (by omega) (hcount.trans_le (by decide)) (i := 254)
    (by rw [hcount]; decide) (by decide) ?_ hopen
  have hstart : groupStart ((kUinttypeMax + 1) / 256) (254 + 1) = 0 := by decide
  have hend : offsetOf 0 (List.replicate 255 260) (254 + 1) = 66300 := by
    rw [offsetOf, List.take_replicate, List.sum_replicate_nat]
    rfl
  rw [hsizes, hstart, offsetOf_zero, hend]
  decide

/-- **Short incompressible blocks.**  255 blocks of 256 bytes that do not shrink are written, and the file is refused:
with their checksums they take 66300 bytes, more than a delta of the one group they are in. -/
theorem small_blocks_are_refused :
    Lossless storedCodec ∧ ValidBlockSize 256 ∧
      ∃ out, writeZfile storedCodec { blockSize := 256 } (List.replicate (255 * 256) 0) (fun algo => decide (algo = 1))
          = .ok out ∧
        ∀ verify z, openFile (fun algo => decide (algo = 1)) (File.ofBytes out) verify ≠ .ok z :=
  ⟨lossless_storedCodec, by decide, refused_of_sizes List.length_replicate
    (recordSizes_stored { blockSize := 256 } (by decide) rfl 255)⟩

end OverlayBD.ZFile
