/-
IPsec encapsulation, and the blocking crypto operations that it is made of.

The position that `process_hmac_result` moves the digest from is a `uint8_t`, so that a digest
behind 256 bytes or more is overwritten with bytes of the packet.  `ipsec_encapsulate` stores
the low byte of the total length only, and keeps the version, the header length and the high
byte of the inner header.

* **`blockingLaw_iff`** — when an operation leaves the digest, or the padding, where it should;
* **`ipsecLaw_iff`** — when the packet is the ESP tunnel packet around the one that came in.
-/
import T4P4S.AsyncResume
import T4P4S.Checksums

open ByteString

namespace T4P4S

/-! ### Blocking operations -/

/-- The device keeps the length of what it encrypts or decrypts, and a digest has 16 bytes. -/
structure CryptoDevice.KeepsLengths (V : CryptoDevice) : Prop where
  encrypt : ∀ bs, (V.encrypt bs).length = bs.length
  decrypt : ∀ bs, (V.decrypt bs).length = bs.length
  md5Hmac : ∀ bs, (V.md5Hmac bs).length = 16

/-- What `rte_pktmbuf_append` adds for an operation on so many bytes: the digest, or the
padding to a block. -/
def CryptoTaskType.appended (plainLength : ℕ) : CryptoTaskType → ℕ
  | .md5Hmac => 16
  | .encrypt | .decrypt => (16 - plainLength % 16) % 16

variable (V : CryptoDevice)

/-- `do_sync_crypto_operation` on a mbuf that has `room` bytes behind the packet.  Without room
`rte_pktmbuf_append` returns `NULL`, which is written through. -/
def operateInMbuf (room : ℕ) (type : CryptoTaskType) (offset : ℕ) (wrapper : List Byte) :
    Option (List Byte) :=
  if type.appended (wrapper.length - offset) ≤ room then
    operateBlocking V type offset wrapper
  else
    none

/-- The packet is followed by the digest of its bytes from the offset on, or it has grown by
the padding. -/
def BlockingLaw (room : ℕ) (type : CryptoTaskType) (offset : ℕ) (wrapper : List Byte) : Prop :=
  ∃ wrapper', operateInMbuf V room type offset wrapper = some wrapper' ∧
    match type with
    | .md5Hmac => wrapper'.length = wrapper.length + 16 ∧
        wrapper'.take wrapper.length = wrapper ∧
        wrapper'.drop wrapper.length = V.md5Hmac (wrapper.drop offset)
    | .encrypt | .decrypt =>
      wrapper'.length = wrapper.length + (16 - (wrapper.length - offset) % 16) % 16

/-- There is room, and a digest is behind less than 256 bytes, or happens to be in the packet
where the `uint8_t` points to. -/
def BlockingFits (room : ℕ) (type : CryptoTaskType) (offset : ℕ) (wrapper : List Byte) : Prop :=
  type.appended (wrapper.length - offset) ≤ room ∧
    (type = .md5Hmac → wrapper.length < 2 ^ 8 ∨
      part wrapper (wrapper.length % 2 ^ 8) 16 = V.md5Hmac (wrapper.drop offset))

/-! ### The tunnel packet -/

/-- The end-around-carry sum of the 16-bit words in host order. -/
def hostSum : List Byte → ℕ
  | [] => 0
  | [a] => a.toNat
  | a :: b :: bs => onesAdd (a.toNat + 256 * b.toNat) (hostSum bs)

/-- `rte_raw_cksum` is the sum that is not complemented. -/
def SumsWords (rteRawCksum : List Byte → BitVec 16) : Prop :=
  ∀ bs, (rteRawCksum bs).toNat = hostSum bs

/-- The padding up to a block, before the two bytes of the trailer. -/
def espPadding (length : ℕ) : ℕ := (16 - (length + 2) % 16) % 16

/-- What is encrypted: the inner packet, the padding, its length and the protocol IPv4. -/
def espPlain (inner : List Byte) : List Byte :=
  inner ++ (List.range (espPadding inner.length)).map (fun i => BitVec.ofNat 8 (i + 1)) ++
    [BitVec.ofNat 8 (espPadding inner.length), 4]

/-- The ESP header (SPI 0x222, sequence number 1) and an IV of zeros. -/
def espHead : List Byte := [0, 0, 0x02, 0x22] ++ [0, 0, 0, 1] ++ List.replicate 16 0

/-- The ESP header, the IV and the ciphertext: what the digest is made of. -/
def espBody (inner : List Byte) : List Byte := espHead ++ V.encrypt (espPlain inner)

/-- The outer header: IPv4 without options, for ESP, with the length of all that follows the
Ethernet header and a checksum that makes the sum all ones. -/
structure OuterHeader (outer : List Byte) (totalLength : ℕ) : Prop where
  length : outer.length = 20
  versionIhl : part outer 0 1 = [0x45]
  totalLength : part outer 2 2 = netBytes 2 totalLength
  protocol : part outer 9 1 = [50]
  checksum : onesSum outer = 0xffff

/-- The ESP tunnel packet with the inner packet that is behind the Ethernet header. -/
structure TunnelPacket (w w' : List Byte) : Prop where
  blocks : (espPlain (w.drop 14)).length % 16 = 0 ∧ espPadding (w.drop 14).length < 16
  packet : ∃ outer, OuterHeader outer (w'.length - 14) ∧
    w' = w.take 14 ++ outer ++ espBody V (w.drop 14) ++
      (V.md5Hmac (espBody V (w.drop 14))).take 12

variable {D M : Type}

/-- `ipsec_encapsulate` with blocking operations. -/
def ipsecEncapsulate (tailroom : ℕ → Byte) (rteRawCksum : List Byte → BitVec 16)
    (h : Handling D M) : HandlingOutcome D M :=
  CryptoExtern.run (doSyncCryptoOperation V) 0 h (.ipsecEncapsulate tailroom rteRawCksum)

def IpsecLaw (tailroom : ℕ → Byte) (rteRawCksum : List Byte → BitVec 16) (h : Handling D M) :
    Prop :=
  ∃ h', ipsecEncapsulate V tailroom rteRawCksum h = .returned h' ∧
    TunnelPacket V h.wrapper h'.wrapper

/-- The packet that the digest is made of: the outer header is the inner one still. -/
def beforeHmac (w : List Byte) : List Byte := w.take 34 ++ espBody V (w.drop 14)

/-- The inner header has no options and the high byte of the new total length, and the digest
is behind less than 256 bytes or its first part happens to be in the packet where the `uint8_t`
points to. -/
structure IpsecFits (w : List Byte) : Prop where
  noOptions : part w 14 1 = [0x45]
  highByte : part w 16 1 = [BitVec.ofNat 8 (((beforeHmac V w).length - 2) / 2 ^ 8)]
  digest : (beforeHmac V w).length < 2 ^ 8 ∨
    part (beforeHmac V w) ((beforeHmac V w).length % 2 ^ 8) 12 =
      (V.md5Hmac (espBody V (w.drop 14))).take 12

/-! ### Parts -/

variable {V}

@[simp] theorem length_part (w : List Byte) (off n : ℕ) :
    (part w off n).length = min n (w.length - off) := by
  rw [part, List.length_take, List.length_drop]

theorem part_of_append_left {w : List Byte} (u : List Byte) {off n : ℕ}
    (h : off + n ≤ w.length) : part (w ++ u) off n = part w off n := by
  rw [part, part, List.drop_append_of_le_length (by omega),
    List.take_append_of_le_length (by rw [List.length_drop]; omega)]

theorem replacePart_of_append_left {w : List Byte} (u : List Byte) {off n : ℕ} (bs : List Byte)
    (h : off + n ≤ w.length) : replacePart (w ++ u) off n bs = replacePart w off n bs ++ u := by
  rw [replacePart, replacePart, List.take_append_of_le_length (by omega),
    List.drop_append_of_le_length h, List.append_assoc, List.append_assoc, List.append_assoc]

/-- The bytes at the end are replaced. -/
theorem replacePart_end (w u : List Byte) (bs : List Byte) {off n : ℕ} (hoff : off = w.length)
    (hn : n = u.length) : replacePart (w ++ u) off n bs = w ++ bs := by
  subst hoff hn
  rw [replacePart, List.take_left, ← List.length_append, List.drop_length, List.append_nil]

/-! ### What the blocking operations make of a packet -/

theorem operateBlocking_md5Hmac (hV : V.KeepsLengths) {offset : ℕ} {w : List Byte}
    (hoffset : offset ≤ w.length) : operateBlocking V .md5Hmac offset w =
      some (w ++ part (w ++ V.md5Hmac (w.drop offset)) (w.length % 2 ^ 8) 16) := by
  have hpart : part w offset (w.length - offset) = w.drop offset := by
    rw [part, ← List.length_drop, List.take_length]
  have hsum : offset + (w.length - offset) = w.length := by omega
  rw [operateBlocking, createCryptoTask, if_pos hoffset, Option.map_some]
  simp only [CryptoDevice.execute, processCryptoOpResult, List.nil_append, if_true,
    List.replicate_zero, List.append_nil, List.length_nil, Nat.add_zero, hpart, hsum, Nat.sub_zero]
  rw [replacePart_end _ _ _ rfl (hV.md5Hmac _).symm, List.take_length]

/-- A digest behind less than 256 bytes is moved to where it is. -/
theorem part_digest_of_lt {w d : List Byte} (hd : d.length = 16) (hlt : w.length < 2 ^ 8) :
    part (w ++ d) (w.length % 2 ^ 8) 16 = d := by
  rw [Nat.mod_eq_of_lt hlt, part, List.drop_left, ← hd, List.take_length]

/-- Behind more, bytes of the packet are moved. -/
theorem part_digest_of_le {w d : List Byte} {n : ℕ} (hn : n ≤ 16) (hle : 2 ^ 8 ≤ w.length) :
    part (w ++ d) (w.length % 2 ^ 8) n = part w (w.length % 2 ^ 8) n := by
  refine part_of_append_left d ?_
  have := Nat.mod_add_div w.length (2 ^ 8)
  have hpos : 1 ≤ w.length / 2 ^ 8 := (Nat.one_le_div_iff (by decide)).mpr hle
  omega

theorem length_operateBlocking (hV : V.KeepsLengths) {type : CryptoTaskType}
    (htype : type ≠ .md5Hmac) {offset : ℕ} {w : List Byte} (hoffset : offset ≤ w.length) :
    ∃ w', operateBlocking V type offset w = some w' ∧
      w'.length = w.length + (16 - (w.length - offset) % 16) % 16 := by
  rw [operateBlocking_eq htype, operate, createCryptoTask, if_pos hoffset, Option.map_some]
  refine ⟨_, rfl, ?_⟩
  have hlength : ∀ bs : List Byte, bs.length =
      min (w.length - offset + (16 - (w.length - offset) % 16) % 16)
        (w.length + (16 - (w.length - offset) % 16) % 16 - offset) →
      (replacePart (w ++ List.replicate ((16 - (w.length - offset) % 16) % 16) 0) offset
        (w.length - offset + (16 - (w.length - offset) % 16) % 16) bs).length =
        w.length + (16 - (w.length - offset) % 16) % 16 := by
    intro bs hbs
    simp only [replacePart, List.length_append, List.length_take, List.length_drop,
      List.length_replicate, hbs]
    omega
  cases type with
  | md5Hmac => exact absurd rfl htype
  | encrypt =>
    refine hlength _ ?_
    rw [hV.encrypt, length_part]
    simp
  | decrypt =>
    refine hlength _ ?_
    rw [hV.decrypt, length_part]
    simp

theorem blockingLaw_md5Hmac_iff (hV : V.KeepsLengths) {room offset : ℕ} {w : List Byte}
    (hroom : 16 ≤ room) (hoffset : offset ≤ w.length) :
    BlockingLaw V room .md5Hmac offset w ↔ w.length < 2 ^ 8 ∨
      part w (w.length % 2 ^ 8) 16 = V.md5Hmac (w.drop offset) := by
  have hd := hV.md5Hmac (w.drop offset)
  have hmoved : BlockingLaw V room .md5Hmac offset w ↔
      part (w ++ V.md5Hmac (w.drop offset)) (w.length % 2 ^ 8) 16 = V.md5Hmac (w.drop offset) := by
    have hrun : operateInMbuf V room .md5Hmac offset w = operateBlocking V .md5Hmac offset w :=
      if_pos hroom
    rw [BlockingLaw, hrun, operateBlocking_md5Hmac hV hoffset]
    constructor
    · rintro ⟨w', hw', -, -, hdrop⟩
      obtain rfl := Option.some.inj hw'
      rwa [List.drop_left] at hdrop
    · intro hpart
      rw [hpart]
      exact ⟨_, rfl, by rw [List.length_append, hd], List.take_left, List.drop_left⟩
  rw [hmoved]
  rcases Nat.lt_or_ge w.length (2 ^ 8) with hlt | hle
  · exact iff_of_true (part_digest_of_lt hd hlt) (.inl hlt)
  · rw [part_digest_of_le (Nat.le_refl 16) hle, or_iff_right (Nat.not_lt.mpr hle)]

/-- **A blocking operation leaves the digest behind the packet, or grows it by the padding, iff
the mbuf has the room and the digest is not moved from a position that a `uint8_t` does not
hold.** -/
theorem blockingLaw_iff (hV : V.KeepsLengths) (room : ℕ) (type : CryptoTaskType) {offset : ℕ}
    {w : List Byte} (hoffset : offset ≤ w.length) :
    BlockingLaw V room type offset w ↔ BlockingFits V room type offset w := by
  by_cases hroom : type.appended (w.length - offset) ≤ room
  · rw [BlockingFits, and_iff_right hroom]
    by_cases htype : type = .md5Hmac
    · subst htype
      rw [forall_prop_of_true rfl]
      exact blockingLaw_md5Hmac_iff hV hroom hoffset
    · refine iff_of_true ?_ fun h => absurd h htype
      obtain ⟨w', hw', hlength⟩ := length_operateBlocking hV htype hoffset
      refine ⟨w', (if_pos hroom).trans hw', ?_⟩
      cases type with
      | md5Hmac => exact absurd rfl htype
      | encrypt => exact hlength
      | decrypt => exact hlength
  · refine iff_of_false ?_ fun h => hroom h.1
    rintro ⟨w', hw', -⟩
    rw [operateInMbuf, if_neg hroom] at hw'
    cases hw'

theorem flipDevice_keepsLengths : flipDevice.KeepsLengths where
  encrypt _ := List.length_map _
  decrypt _ := List.length_map _
  md5Hmac _ := List.length_replicate

/-- The digest of 200 bytes. -/
theorem short_blockingLaw : BlockingLaw flipDevice 128 .md5Hmac 0 (List.replicate 200 1) :=
  (blockingLaw_iff flipDevice_keepsLengths 128 .md5Hmac (Nat.zero_le _)).mpr
    ⟨by decide, fun _ => .inl (by rw [List.length_replicate]; decide)⟩

/-- Behind 256 bytes the first 16 of them are moved. -/
theorem not_blockingLaw : ¬ ∀ (V : CryptoDevice), V.KeepsLengths →
    ∀ (room : ℕ) (type : CryptoTaskType) (offset : ℕ) (w : List Byte), 16 ≤ room →
      offset ≤ w.length → BlockingLaw V room type offset w := by
  intro hlaw
  have hlong := (blockingLaw_md5Hmac_iff flipDevice_keepsLengths (Nat.le_refl 16)
    (Nat.zero_le _)).mp (hlaw flipDevice flipDevice_keepsLengths 16 .md5Hmac 0
      (List.replicate 256 1) (Nat.le_refl 16) (Nat.zero_le _))
  rw [List.length_replicate] at hlong
  rcases hlong with hlt | hpart
  · exact absurd hlt (by decide)
  · rw [part, List.drop_replicate, List.take_replicate] at hpart
    exact absurd hpart (by decide)

/-! ### The phases of `ipsec_encapsulate` -/

@[simp] theorem length_espPlain (inner : List Byte) :
    (espPlain inner).length = inner.length + espPadding inner.length + 2 := by
  simp only [espPlain, List.length_append, List.length_map, List.length_range, List.length_cons,
    List.length_nil]

theorem espPlain_blocks (inner : List Byte) :
    (espPlain inner).length % 16 = 0 ∧ espPadding inner.length < 16 := by
  rw [length_espPlain, espPadding]
  omega

@[simp] theorem length_espHead : espHead.length = 24 := rfl

/-- The first block: what was behind the Ethernet header is the payload of a new packet. -/
theorem encapsulate_eq (tailroom : ℕ → Byte) {h : Handling D M} (hle : 34 ≤ h.wrapper.length) :
    encapsulate tailroom h = some { h with
      wrapper := h.wrapper.take 34 ++ espHead ++ espPlain (h.wrapper.drop 14) } := by
  rw [encapsulate]
  dsimp only
  rw [if_pos (by omega)]
  congr 2
  set w := h.wrapper
  set size := (w.length - 14) + (16 - (w.length - 14 + 2) % 16) % 16 + 2 with hsize
  set extra := (List.range (8 + 16 + size + 34 - w.length)).map fun i => tailroom (w.length + i)
    with hextra
  have hlength : (w ++ extra).length = 58 + size := by
    rw [List.length_append, hextra, List.length_map, List.length_range]
    omega
  set moved := part (w ++ extra) 14 size with hmoved
  have hlengthMoved : moved.length = size := by
    rw [hmoved, length_part, hlength]
    omega
  have hstart : (w ++ extra).take 34 = w.take 34 := List.take_append_of_le_length hle
  have hinner : moved.take (w.length - 14) = w.drop 14 := by
    rw [hmoved, part, List.take_take, Nat.min_eq_left (by omega),
      List.drop_append_of_le_length (by omega), ← List.length_drop, List.take_left]
  -- the ranges overlap; what is moved was read before
  have hmove : replacePart (w ++ extra) 58 size moved = (w ++ extra).take 58 ++ moved := by
    have hend : (w ++ extra).drop (58 + size) = [] := List.drop_of_length_le hlength.le
    rw [replacePart, hend, List.append_nil]
  have hhead : replacePart ((w ++ extra).take 58 ++ moved) 34 24
      ([0, 0, 0x02, 0x22] ++ [0, 0, 0, 1] ++ List.replicate 16 0) =
        w.take 34 ++ espHead ++ moved := by
    have hlengthTake : ((w ++ extra).take 58).length = 58 := by
      rw [List.length_take, hlength]
      omega
    rw [replacePart, List.take_append_of_le_length (by omega), List.take_take,
      Nat.min_eq_left (by decide), hstart, List.drop_append_of_le_length (by omega),
      List.drop_of_length_le (by omega), List.nil_append]
    rfl
  rw [hmove, hhead, ← List.take_append_drop (w.length - 14) moved, hinner,
    ← List.append_assoc (w.take 34 ++ espHead), replacePart_end]
  · simp only [espPlain, List.length_drop, espPadding, List.append_assoc]
  · simp only [List.length_append, List.length_take, length_espHead, List.length_drop]
    omega
  · rw [List.length_drop, hlengthMoved]
    omega

theorem length_espBody (hV : V.KeepsLengths) (inner : List Byte) :
    (espBody V inner).length = 24 + (espPlain inner).length := by
  rw [espBody, List.length_append, length_espHead, hV.encrypt]

/-- The second block: the payload is encrypted, and no padding is added to it. -/
theorem operateBlocking_encrypt {w : List Byte} (hle : 34 ≤ w.length) :
    operateBlocking V .encrypt 58 (w.take 34 ++ espHead ++ espPlain (w.drop 14)) =
      some (beforeHmac V w) := by
  set plain := espPlain (w.drop 14)
  have hblocks : plain.length % 16 = 0 := (espPlain_blocks _).1
  have hfront : (w.take 34 ++ espHead).length = 58 := by
    rw [List.length_append, List.length_take, length_espHead, Nat.min_eq_left hle]
  have hlength : (w.take 34 ++ espHead ++ plain).length = 58 + plain.length := by
    rw [List.length_append, hfront]
  have hpadding : (16 - plain.length % 16) % 16 = 0 := by
    rw [hblocks]
  have hpart : part (w.take 34 ++ espHead ++ plain) 58 plain.length = plain := by
    rw [part, ← hfront, List.drop_left, List.take_length]
  rw [operateBlocking, createCryptoTask, hlength, if_pos (Nat.le_add_right 58 _), Option.map_some,
    Nat.add_sub_cancel_left]
  simp only [CryptoDevice.execute, processCryptoOpResult, reduceCtorEq, if_false, hpadding,
    List.replicate_zero, List.append_nil, List.nil_append, List.length_nil, Nat.add_zero, hpart]
  rw [replacePart_end _ _ _ hfront.symm rfl, beforeHmac, espBody, List.append_assoc]

/-! ### The outer header -/

/-- The header that the last block makes of the inner one. -/
def outerHeader (rteRawCksum : List Byte → BitVec 16) (length : Byte) (b : ℕ → Byte) :
    List Byte :=
  let header (c : List Byte) : List Byte :=
    [b 0, b 1, b 2, length, b 4, b 5, b 6, b 7, b 8, 0x32] ++ c ++ [3, 3, 3, 3, 4, 4, 4, 4]
  let cksum := rteRawCksum (header [0, 0])
  header (hostBytes 2 (if cksum = 0xffff then cksum else ~~~cksum).toNat)

/-- Twenty bytes, one by one. -/
theorem exists_bytes_of_length {l : List Byte} (hl : l.length = 20) :
    ∃ b : ℕ → Byte, l = [b 0, b 1, b 2, b 3, b 4, b 5, b 6, b 7, b 8, b 9, b 10, b 11, b 12, b 13,
      b 14, b 15, b 16, b 17, b 18, b 19] := by
  refine ⟨fun i => l.getD i 0, ?_⟩
  show l = (List.range 20).map fun i => l.getD i 0
  refine List.ext_getElem (by rw [hl, List.length_map, List.length_range]) fun i hi _ => ?_
  rw [List.getElem_map, List.getElem_range, List.getD_eq_getElem _ _ hi]

/-- The bytes of the header are replaced one after the other. -/
theorem replacePart_header (eth rest : List Byte) (heth : eth.length = 14) (hdr : List Byte)
    {off n : ℕ} (bs : List Byte) (h : off + n ≤ hdr.length) :
    replacePart (eth ++ hdr ++ rest) (off + 14) n bs = eth ++ replacePart hdr off n bs ++ rest := by
  have hle : off + 14 + n ≤ (eth ++ hdr).length := by
    rw [List.length_append, heth]
    omega
  rw [replacePart_of_append_left _ _ hle, ← heth, replacePart_append]

theorem part_header (eth rest : List Byte) (heth : eth.length = 14) {hdr : List Byte}
    (hhdr : hdr.length = 20) : part (eth ++ hdr ++ rest) 14 20 = hdr := by
  rw [part, List.append_assoc, ← heth, List.drop_left, ← hhdr, List.take_left]

theorem keepHmac_eq (rteRawCksum : List Byte → BitVec 16) {h : Handling D M}
    {eth rest : List Byte} {b : ℕ → Byte} (heth : eth.length = 14)
    (hw : h.wrapper.take (h.wrapper.length - 4) = eth ++ [b 0, b 1, b 2, b 3, b 4, b 5, b 6, b 7,
      b 8, b 9, b 10, b 11, b 12, b 13, b 14, b 15, b 16, b 17, b 18, b 19] ++ rest) :
    (keepHmac rteRawCksum h).map Handling.wrapper = some (eth ++
      outerHeader rteRawCksum (BitVec.ofNat 8 (h.wrapper.length - 4) - 14) b ++ rest) := by
  have hlength : (h.wrapper.take (h.wrapper.length - 4)).length = h.wrapper.length - 4 := by
    rw [List.length_take]
    omega
  have hle : 34 ≤ h.wrapper.length - 4 := by
    rw [← hlength, hw]
    simp only [List.length_append, List.length_cons, List.length_nil, heth]
    omega
  rw [keepHmac]
  dsimp only
  rw [hlength, if_pos hle, Option.map_some, hw]
  dsimp only
  rw [replacePart_header _ _ heth _ _ (by decide : 3 + 1 ≤ 20),
    replacePart_header _ _ heth _ _ (by decide : 10 + 2 ≤ 20),
    replacePart_header _ _ heth _ _ (by decide : 9 + 4 ≤ 20),
    replacePart_header _ _ heth _ _ (by decide : 12 + 4 ≤ 20),
    replacePart_header _ _ heth _ _ (by decide : 16 + 4 ≤ 20), part_header _ _ heth rfl,
    replacePart_header _ _ heth _ _ (by decide : 10 + 2 ≤ 20)]
  rfl

/-! ### The checksum -/

section OnesSum

variable {a b : ℕ}

theorem onesAdd_lt (ha : a < 2 ^ 16) (hb : b < 2 ^ 16) : onesAdd a b < 2 ^ 16 := by
  rw [onesAdd]
  split <;> omega

theorem onesAdd_eq_zero (ha : a < 2 ^ 16) (hb : b < 2 ^ 16) (h : onesAdd a b = 0) :
    a = 0 ∧ b = 0 := by
  rw [onesAdd] at h
  split at h <;> omega

theorem onesAdd_modEq (a b : ℕ) : onesAdd a b ≡ a + b [MOD 0xffff] := by
  rw [onesAdd]
  split
  · exact Nat.ModEq.refl _
  · next h =>
    have hsum : a + b - 0xffff + 0xffff = a + b := by omega
    rw [Nat.ModEq, ← Nat.add_mod_right, hsum]

theorem word_lt (x y : Byte) : 256 * x.toNat + y.toNat < 2 ^ 16 := by
  have := x.isLt
  have := y.isLt
  omega

end OnesSum

theorem onesSum_lt (bs : List Byte) : onesSum bs < 2 ^ 16 := by
  induction bs using onesSum.induct with
  | case1 => decide
  | case2 x =>
    have := x.isLt
    rw [onesSum]
    omega
  | case3 x y bs ih => exact onesAdd_lt (word_lt x y) ih

theorem eq_zero_of_onesSum {bs : List Byte} (h : onesSum bs = 0) : ∀ b ∈ bs, b = 0 := by
  have hbyte : ∀ x : Byte, x.toNat = 0 → x = 0 := fun x hx => BitVec.eq_of_toNat_eq hx
  induction bs using onesSum.induct with
  | case1 => exact fun b hb => absurd hb List.not_mem_nil
  | case2 x =>
    rw [onesSum] at h
    intro b hb
    rw [List.mem_singleton.mp hb]
    exact hbyte x (by omega)
  | case3 x y bs ih =>
    obtain ⟨hword, hrest⟩ := onesAdd_eq_zero (word_lt x y) (onesSum_lt bs) h
    intro b hb
    rcases List.mem_cons.mp hb with rfl | hb
    · exact hbyte b (by omega)
    · rcases List.mem_cons.mp hb with rfl | hb
      · exact hbyte b (by omega)
      · exact ih hrest b hb

/-- The two byte orders give sums that are each other's bytes in the other order. -/
theorem hostSum_modEq (bs : List Byte) : hostSum bs ≡ 256 * onesSum bs [MOD 0xffff] := by
  have hswap : ∀ x y : ℕ, x + 256 * y ≡ 256 * (256 * x + y) [MOD 0xffff] := by
    intro x y
    have hrw : 256 * (256 * x + y) = x + 256 * y + 0xffff * x := by omega
    rw [hrw, Nat.ModEq, Nat.add_mul_mod_self_left]
  induction bs using onesSum.induct with
  | case1 => exact Nat.ModEq.refl 0
  | case2 x => exact hswap x.toNat 0
  | case3 x y bs ih =>
    calc hostSum (x :: y :: bs) ≡ x.toNat + 256 * y.toNat + hostSum bs [MOD 0xffff] :=
          onesAdd_modEq _ _
      _ ≡ 256 * (256 * x.toNat + y.toNat) + 256 * onesSum bs [MOD 0xffff] :=
          (hswap _ _).add ih
      _ = 256 * (256 * x.toNat + y.toNat + onesSum bs) := (Nat.mul_add _ _ _).symm
      _ ≡ 256 * onesSum (x :: y :: bs) [MOD 0xffff] := (onesAdd_modEq _ _).symm.mul_left 256

theorem hostSum_append {pre : List Byte} (heven : pre.length % 2 = 0) (bs : List Byte) :
    hostSum (pre ++ bs) ≡ hostSum pre + hostSum bs [MOD 0xffff] := by
  induction pre using hostSum.induct with
  | case1 => rw [List.nil_append, hostSum, Nat.zero_add]
  | case2 x => cases heven
  | case3 x y pre ih =>
    have hpre : pre.length % 2 = 0 := by
      simp only [List.length_cons] at heven
      omega
    calc hostSum (x :: y :: pre ++ bs)
        ≡ x.toNat + 256 * y.toNat + hostSum (pre ++ bs) [MOD 0xffff] := onesAdd_modEq _ _
      _ ≡ x.toNat + 256 * y.toNat + (hostSum pre + hostSum bs) [MOD 0xffff] :=
          (ih hpre).add_left _
      _ = x.toNat + 256 * y.toNat + hostSum pre + hostSum bs := (Nat.add_assoc _ _ _).symm
      _ ≡ hostSum (x :: y :: pre) + hostSum bs [MOD 0xffff] :=
          (onesAdd_modEq _ _).symm.add_right _

/-- What is stored completes the sum to all ones, also when it is not complemented. -/
theorem cksum_modEq (c : BitVec 16) :
    c.toNat + (if c = 0xffff then c else ~~~c).toNat ≡ 0 [MOD 0xffff] := by
  have hc := c.isLt
  by_cases h : c = 0xffff
  · rw [if_pos h, h]
    decide
  · rw [if_neg h, BitVec.toNat_not]
    have hsum : c.toNat + (2 ^ 16 - 1 - c.toNat) = 0xffff := by omega
    rw [hsum]
    decide

theorem hostSum_hostBytes {v : ℕ} (hv : v < 2 ^ 16) : hostSum (hostBytes 2 v) = v := by
  have hbytes : hostBytes 2 v = [BitVec.ofNat 8 v, BitVec.ofNat 8 (v / 256)] := by
    simp [hostBytes]
  rw [hbytes, hostSum, hostSum, BitVec.toNat_ofNat, BitVec.toNat_ofNat, onesAdd]
  split <;> omega

/-- A checksum that is stored where the sum was made with zeros makes the sum all ones. -/
theorem onesSum_complete {pre post : List Byte} (heven : pre.length % 2 = 0)
    (hne : ∃ b ∈ pre, b ≠ 0) {c : BitVec 16} (hc : c.toNat = hostSum (pre ++ [0, 0] ++ post)) :
    onesSum (pre ++ hostBytes 2 (if c = 0xffff then c else ~~~c).toNat ++ post) = 0xffff := by
  set v := (if c = 0xffff then c else ~~~c)
  have hwith : ∀ w : List Byte, w.length = 2 →
      hostSum (pre ++ w ++ post) ≡ hostSum pre + hostSum w + hostSum post [MOD 0xffff] := by
    intro w hw
    have heven' : (pre ++ w).length % 2 = 0 := by
      rw [List.length_append, hw]
      omega
    exact (hostSum_append heven' post).trans ((hostSum_append heven w).add_right _)
  have hstored := hwith _ (length_hostBytes 2 v.toNat)
  rw [hostSum_hostBytes v.isLt] at hstored
  have hzeros : c.toNat ≡ hostSum pre + hostSum post [MOD 0xffff] := by
    rw [hc]
    exact hwith [0, 0] rfl
  have hzero : hostSum (pre ++ hostBytes 2 v.toNat ++ post) ≡ 0 [MOD 0xffff] := by
    refine hstored.trans ?_
    rw [Nat.add_right_comm]
    exact (hzeros.symm.add_right _).trans (cksum_modEq c)
  have hlt := onesSum_lt (pre ++ hostBytes 2 v.toNat ++ post)
  have hpos : onesSum (pre ++ hostBytes 2 v.toNat ++ post) ≠ 0 := by
    intro h
    obtain ⟨b, hb, hnot⟩ := hne
    exact hnot (eq_zero_of_onesSum h b (List.mem_append_left _ (List.mem_append_left _ hb)))
  have hdvd : 0xffff ∣ onesSum (pre ++ hostBytes 2 v.toNat ++ post) := by
    have hcop : Nat.Coprime 0xffff 256 := by decide
    exact hcop.dvd_of_dvd_mul_left
      (Nat.modEq_zero_iff_dvd.mp ((hostSum_modEq _).symm.trans hzero))
  obtain ⟨k, hk⟩ := hdvd
  omega

theorem onesSum_outerHeader {rteRawCksum : List Byte → BitVec 16} (hsums : SumsWords rteRawCksum)
    (length : Byte) (b : ℕ → Byte) : onesSum (outerHeader rteRawCksum length b) = 0xffff :=
  onesSum_complete (by simp) ⟨0x32, by simp, by decide⟩ (hsums _)

/-! ### The packet that comes out -/

theorem length_beforeHmac {w : List Byte} (hle : 34 ≤ w.length) :
    (beforeHmac V w).length = 34 + (espBody V (w.drop 14)).length := by
  rw [beforeHmac, List.length_append, List.length_take, Nat.min_eq_left hle]

/-- What is moved behind the packet in place of the digest, cut to 12 bytes. -/
def movedDigest (V : CryptoDevice) (w : List Byte) : List Byte :=
  part (beforeHmac V w ++ V.md5Hmac (espBody V (w.drop 14))) ((beforeHmac V w).length % 2 ^ 8) 12

theorem ipsecEncapsulate_eq (hV : V.KeepsLengths) (tailroom : ℕ → Byte)
    (rteRawCksum : List Byte → BitVec 16) {h : Handling D M} (hle : 34 ≤ h.wrapper.length) :
    ∃ b h', (h.wrapper.drop 14).take 20 = [b 0, b 1, b 2, b 3, b 4, b 5, b 6, b 7, b 8, b 9, b 10,
        b 11, b 12, b 13, b 14, b 15, b 16, b 17, b 18, b 19] ∧
      ipsecEncapsulate V tailroom rteRawCksum h = .returned h' ∧
      h'.wrapper = h.wrapper.take 14 ++ outerHeader rteRawCksum
          (BitVec.ofNat 8 ((beforeHmac V h.wrapper).length + 12) - 14) b ++
        (espBody V (h.wrapper.drop 14) ++ movedDigest V h.wrapper) := by
  set w := h.wrapper with hw
  set h₁ : Handling D M :=
    { h with wrapper := w.take 34 ++ espHead ++ espPlain (w.drop 14) } with hh₁
  obtain ⟨b, hb⟩ := exists_bytes_of_length (l := (w.drop 14).take 20)
    (by rw [List.length_take, List.length_drop]; omega)
  set before := beforeHmac V w with hbefore
  set d := V.md5Hmac (espBody V (w.drop 14)) with hd
  have hlengthd : d.length = 16 := hV.md5Hmac _
  set moved := part (before ++ d) (before.length % 2 ^ 8) 16 with hmoved
  have hlengthMoved : moved.length = 16 := by
    rw [hmoved, length_part, List.length_append, hlengthd]
    have := Nat.mod_le before.length (2 ^ 8)
    omega
  have hdrop : before.drop 34 = espBody V (w.drop 14) := by
    have htake : (w.take 34).length = 34 := by
      rw [List.length_take, Nat.min_eq_left hle]
    rw [hbefore, beforeHmac, ← htake, htake, List.drop_left' htake]
  have hhmac : operateBlocking V .md5Hmac 34 before =
      some (before ++ moved) := by
    rw [operateBlocking_md5Hmac hV, hdrop]
    rw [hbefore, length_beforeHmac hle]
    exact Nat.le_add_right 34 _
  -- the three blocks one after the other
  have hrun : ipsecEncapsulate V tailroom rteRawCksum h = CallOutcome.ofOption
      (keepHmac rteRawCksum ((h₁.blocking before).blocking (before ++ moved))) := by
    rw [ipsecEncapsulate, run_ipsecEncapsulate_of_some (encapsulate_eq tailroom hle),
      doSyncCryptoOperation_eq]
    dsimp only
    rw [operateBlocking_encrypt hle]
    show (doSyncCryptoOperation V .md5Hmac 34 1 _).bind _ = _
    rw [doSyncCryptoOperation_eq]
    show (CallOutcome.ofOption ((operateBlocking V .md5Hmac 34 before).map _)).bind _ = _
    rw [hhmac]
    rfl
  have htake : (before ++ moved).take ((before ++ moved).length - 4) =
      w.take 14 ++ [b 0, b 1, b 2, b 3, b 4, b 5, b 6, b 7, b 8, b 9, b 10, b 11, b 12, b 13,
        b 14, b 15, b 16, b 17, b 18, b 19] ++ (espBody V (w.drop 14) ++ movedDigest V w) := by
    have hlength : (before ++ moved).length - 4 = before.length + 12 := by
      rw [List.length_append, hlengthMoved]
      omega
    have hcut : moved.take 12 = movedDigest V w := by
      rw [hmoved, part, List.take_take]
      rfl
    have hsplit : w.take 34 = w.take 14 ++ (w.drop 14).take 20 := by
      rw [← List.take_add]
    rw [hlength, List.take_length_add_append, hcut, hbefore, beforeHmac, hsplit, hb]
    simp only [List.append_assoc]
  obtain ⟨h', hkeep, hwrapper⟩ := Option.map_eq_some_iff.mp (keepHmac_eq rteRawCksum
    (h := (h₁.blocking before).blocking (before ++ moved)) (by rw [List.length_take]; omega) htake)
  refine ⟨b, h', hb, ?_, ?_⟩
  · rw [hrun, hkeep]
    rfl
  · have hlength : (before ++ moved).length - 4 = before.length + 12 := by
      rw [List.length_append, hlengthMoved]
      omega
    rw [hwrapper, ← hlength]
    rfl

theorem length_movedDigest (hV : V.KeepsLengths) (w : List Byte) :
    (movedDigest V w).length = 12 := by
  have := Nat.mod_le (beforeHmac V w).length (2 ^ 8)
  rw [movedDigest, length_part, List.length_append, hV.md5Hmac]
  omega

theorem movedDigest_iff (hV : V.KeepsLengths) (w : List Byte) :
    movedDigest V w = (V.md5Hmac (espBody V (w.drop 14))).take 12 ↔
      (beforeHmac V w).length < 2 ^ 8 ∨
        part (beforeHmac V w) ((beforeHmac V w).length % 2 ^ 8) 12 =
          (V.md5Hmac (espBody V (w.drop 14))).take 12 := by
  have hd := hV.md5Hmac (espBody V (w.drop 14))
  rw [movedDigest]
  rcases Nat.lt_or_ge (beforeHmac V w).length (2 ^ 8) with hlt | hle
  · refine iff_of_true ?_ (.inl hlt)
    rw [Nat.mod_eq_of_lt hlt, part, List.drop_left]
  · rw [part_digest_of_le (by decide) hle, or_iff_right (Nat.not_lt.mpr hle)]

/-- The low byte of the length is stored, the high byte stays. -/
theorem totalLength_iff (rteRawCksum : List Byte → BitVec 16) {n : ℕ} (hn : 2 ≤ n)
    (b : ℕ → Byte) :
    part (outerHeader rteRawCksum (BitVec.ofNat 8 (n + 12) - 14) b) 2 2 = netBytes 2 (n - 2) ↔
      b 2 = BitVec.ofNat 8 ((n - 2) / 2 ^ 8) := by
  have hlow : BitVec.ofNat 8 (n + 12) - 14 = BitVec.ofNat 8 (n - 2) := by
    have hsum : n + 12 = n - 2 + 14 := by omega
    rw [hsum, BitVec.ofNat_add]
    exact BitVec.add_sub_cancel _ _
  have hbytes : netBytes 2 (n - 2) =
      [BitVec.ofNat 8 ((n - 2) / 2 ^ 8), BitVec.ofNat 8 (n - 2)] := by
    simp [netBytes, hostBytes]
  rw [hlow, hbytes]
  show [b 2, _] = _ ↔ _
  rw [List.cons.injEq, and_iff_left rfl]

theorem outerHeader_iff {rteRawCksum : List Byte → BitVec 16} (hsums : SumsWords rteRawCksum)
    {w : List Byte} {b : ℕ → Byte} (hw : (w.drop 14).take 20 = [b 0, b 1, b 2, b 3, b 4, b 5, b 6,
      b 7, b 8, b 9, b 10, b 11, b 12, b 13, b 14, b 15, b 16, b 17, b 18, b 19])
    {n : ℕ} (hn : 2 ≤ n) :
    OuterHeader (outerHeader rteRawCksum (BitVec.ofNat 8 (n + 12) - 14) b) (n - 2) ↔
      part w 14 1 = [0x45] ∧ part w 16 1 = [BitVec.ofNat 8 ((n - 2) / 2 ^ 8)] := by
  have hfirst : part w 14 1 = [b 0] := by
    have htake := congrArg (List.take 1) hw
    rwa [List.take_take] at htake
  have hthird : part w 16 1 = [b 2] := by
    have htake : (((w.drop 14).take 20).drop 2).take 1 = [b 2] := by
      rw [hw]
      rfl
    rwa [List.drop_take, List.take_take, List.drop_drop] at htake
  rw [hfirst, hthird]
  simp only [List.cons.injEq, and_true]
  constructor
  · rintro ⟨-, hversion, hlength, -, -⟩
    exact ⟨(List.cons.inj hversion).1, (totalLength_iff rteRawCksum hn b).mp hlength⟩
  · rintro ⟨hversion, hhigh⟩
    exact ⟨rfl, congrArg (fun x => [x]) hversion, (totalLength_iff rteRawCksum hn b).mpr hhigh,
      rfl, onesSum_outerHeader hsums _ b⟩

/-- What comes out is a tunnel packet iff its header and its digest are right. -/
theorem ipsecLaw_iff_fits (hV : V.KeepsLengths) {rteRawCksum : List Byte → BitVec 16}
    (hsums : SumsWords rteRawCksum) (tailroom : ℕ → Byte) {h : Handling D M}
    (hle : 34 ≤ h.wrapper.length) :
    IpsecLaw V tailroom rteRawCksum h ↔
      (part h.wrapper 14 1 = [0x45] ∧
        part h.wrapper 16 1 =
          [BitVec.ofNat 8 (((beforeHmac V h.wrapper).length - 2) / 2 ^ 8)]) ∧
      movedDigest V h.wrapper = (V.md5Hmac (espBody V (h.wrapper.drop 14))).take 12 := by
  obtain ⟨b, h', hb, hrun, hwrapper⟩ := ipsecEncapsulate_eq hV tailroom rteRawCksum hle
  set w := h.wrapper
  set n := (beforeHmac V w).length with hn
  have hbody := length_espBody hV (w.drop 14)
  have htwo : 2 ≤ n := by
    rw [hn, length_beforeHmac hle]
    omega
  have hlength : h'.wrapper.length - 14 = n - 2 := by
    rw [hwrapper, hn, length_beforeHmac hle]
    simp only [List.length_append, List.length_take, length_movedDigest hV]
    have : (outerHeader rteRawCksum
      (BitVec.ofNat 8 (34 + (espBody V (w.drop 14)).length + 12) - 14) b).length = 20 := rfl
    omega
  rw [← outerHeader_iff hsums hb htwo, IpsecLaw, hrun]
  constructor
  · rintro ⟨h'', hreturned, -, outer, houter, hpacket⟩
    obtain rfl := CallOutcome.returned.inj hreturned
    rw [hlength] at houter
    rw [hwrapper, List.append_assoc, List.append_assoc, List.append_assoc,
      List.append_cancel_left_eq] at hpacket
    obtain ⟨hheader, hrest⟩ := List.append_inj hpacket houter.length.symm
    exact ⟨hheader ▸ houter, List.append_cancel_left hrest⟩
  · rintro ⟨houter, hdigest⟩
    refine ⟨h', rfl, espPlain_blocks _, _, hlength ▸ houter, ?_⟩
    rw [hwrapper, hdigest, List.append_assoc, List.append_assoc, List.append_assoc]

/-- **`ipsec_encapsulate` makes the ESP tunnel packet iff the inner header has no options and
the right high byte of the length, and the digest is not moved from a position that a `uint8_t`
does not hold.** -/
theorem ipsecLaw_iff (hV : V.KeepsLengths) {rteRawCksum : List Byte → BitVec 16}
    (hsums : SumsWords rteRawCksum) (tailroom : ℕ → Byte) {h : Handling D M}
    (hle : 34 ≤ h.wrapper.length) :
    IpsecLaw V tailroom rteRawCksum h ↔ IpsecFits V h.wrapper := by
  rw [ipsecLaw_iff_fits hV hsums tailroom hle, movedDigest_iff hV]
  constructor
  · rintro ⟨⟨hversion, hhigh⟩, hdigest⟩
    exact ⟨hversion, hhigh, hdigest⟩
  · rintro ⟨hversion, hhigh, hdigest⟩
    exact ⟨⟨hversion, hhigh⟩, hdigest⟩

/-! ### Two packets -/

theorem hostSum_lt (bs : List Byte) : hostSum bs < 2 ^ 16 := by
  induction bs using hostSum.induct with
  | case1 => decide
  | case2 x =>
    have := x.isLt
    rw [hostSum]
    omega
  | case3 x y bs ih =>
    have hword := word_lt y x
    exact onesAdd_lt (by omega) ih

/-- The sum of the words as a function of DPDK. -/
def sumWords (bs : List Byte) : BitVec 16 := BitVec.ofNat 16 (hostSum bs)

theorem sumWords_sums : SumsWords sumWords := by
  intro bs
  rw [sumWords, BitVec.toNat_ofNat, Nat.mod_eq_of_lt (hostSum_lt bs)]

/-- An Ethernet frame with an IPv4 packet without options, of zeros but for its length. -/
def ipv4Frame (length : ℕ) : Handling Unit Unit where
  wrapper := List.replicate 12 0 ++ [0x08, 0x00, 0x45, 0] ++ netBytes 2 length ++
    List.replicate (length - 4) 0
  pd := ⟨0, 0, 0, false, ()⟩
  memories := ()

theorem length_ipv4Frame {length : ℕ} (h : 4 ≤ length) :
    (ipv4Frame length).wrapper.length = 14 + length := by
  simp only [ipv4Frame, List.length_append, List.length_replicate, List.length_cons,
    List.length_nil, length_netBytes]
  omega

theorem length_beforeHmac_ipv4Frame {length : ℕ} (h : 20 ≤ length) :
    (beforeHmac flipDevice (ipv4Frame length).wrapper).length =
      60 + length + espPadding length := by
  have hwrapper := length_ipv4Frame (Nat.le_trans (by decide) h)
  rw [length_beforeHmac (by rw [hwrapper]; omega), length_espBody flipDevice_keepsLengths,
    length_espPlain, List.length_drop, hwrapper, Nat.add_sub_cancel_left]
  omega

theorem short_ipsecLaw : IpsecLaw flipDevice (fun _ => 0) sumWords (ipv4Frame 20) := by
  have hlength := length_beforeHmac_ipv4Frame (Nat.le_refl 20)
  refine (ipsecLaw_iff flipDevice_keepsLengths sumWords_sums (fun _ => 0)
    (by rw [length_ipv4Frame (by decide)])).mpr ⟨rfl, ?_, .inl ?_⟩
  · rw [hlength]
    rfl
  · rw [hlength]
    decide

/-- With 206 bytes the new length has a high byte. -/
theorem not_ipsecLaw : ¬ IpsecLaw flipDevice (fun _ => 0) sumWords (ipv4Frame 206) := by
  rw [ipsecLaw_iff_fits flipDevice_keepsLengths sumWords_sums (fun _ => 0)
    (by rw [length_ipv4Frame (by decide)]; decide)]
  rintro ⟨⟨-, hhigh⟩, -⟩
  rw [length_beforeHmac_ipv4Frame (by decide)] at hhigh
  revert hhigh
  decide

end T4P4S
