/-
Rock/ShareLink.lean

The link that a new share point starts with (`portal_handle_share` of kernel/core/portal.c,
`struct portal_link` of portal.h).

A request that creates a share point as `LINK_CIRCULAR` gets a `portal_link` at the start of
its region, a `circular_queue` behind it, and the rest of the region as the data of the queue.
The sizes are computed from the length of the request without a check: the differences are
those of `size_t`, and they are stored in fields that are `int`.

A length that has no room for the two headers wraps to almost `2 ^ 64`, and the queue gets a
negative number of elements.  From `2 ^ 31` on the fields of the link are truncated, each in its
own way.  `circular_link_fits_iff` says for which lengths the link fits its region: the
equation between the limit of the data and the length is read once with the stored length and
once with the length of the request, which are not the same from `2 ^ 31` on.

The size of `struct circular_queue` is a parameter.
-/
import Rock.Bytes
import Rock.Portal
import Rock.SharePoint
import Mathlib.Order.CompletePartialOrder

namespace Rock

variable {σ R : Type}

/-! ### The link -/

def linkCircular : BitVec 32 := 1 <<< 0
def linkCircularMagic : BitVec 32 := 0x9E810F7F

/-- `struct portal_link`. -/
structure PortalLink where
  lock : BitVec 8
  length : BitVec 32
  headerOffset : BitVec 32
  headerLimit : BitVec 32
  dataOffset : BitVec 32
  dataLimit : BitVec 32
  magic : BitVec 32
  deriving DecidableEq, Repr

/-- `sizeof(struct portal_link)`, which is packed. -/
def portalLinkSize : ℕ := 25

/-- The link and the queue that are set up for a request: where they are, and what
`circular_queue_init` is given. -/
structure LinkSetup where
  link : Word
  header : PortalLink
  queue : Word
  data : Word
  queueLength : BitVec 32
  deriving DecidableEq, Repr

/-- What is left of the length behind the two headers, in `size_t`. -/
def PortalReq.linkRest (queueSize : ℕ) (req : PortalReq) : Word :=
  req.length - BitVec.ofNat 64 portalLinkSize - BitVec.ofNat 64 queueSize

/-- The link of a region. -/
def PortalReq.circularLink (queueSize : ℕ) (req : PortalReq) : LinkSetup where
  link := req.addr
  header :=
    { lock := 0
      length := req.length.setWidth 32
      headerOffset := 0
      headerLimit := BitVec.ofNat 32 portalLinkSize
      dataOffset := (BitVec.ofNat 64 portalLinkSize + BitVec.ofNat 64 queueSize).setWidth 32
      dataLimit := (req.linkRest queueSize).setWidth 32
      magic := linkCircularMagic }
  queue := req.addr + BitVec.ofNat 64 portalLinkSize
  data := req.addr + BitVec.ofNat 64 portalLinkSize + BitVec.ofNat 64 queueSize
  queueLength := (req.linkRest queueSize / 4).setWidth 32

/-- The link that `portal_handle_share` sets up, for a request with the link type `type`: only a
new share point gets one, and a raw one has no contents. -/
def shareLink (fayt : PortalLib) (queueSize : ℕ) (s : PortalState σ R) (req : PortalReq)
    (type : BitVec 32) : Option LinkSetup :=
  match s.shareMap req.identifier with
  | some _ => none
  | none =>
      if req.create then
        if fayt.pushPointFails s.shareMap req.identifier then none
        else if type &&& linkCircular = linkCircular then some (req.circularLink queueSize)
        else none
      else none

theorem shareLink_eq {fayt : PortalLib} {queueSize : ℕ} {s : PortalState σ R} {req : PortalReq}
    {type : BitVec 32} {w : LinkSetup} (h : shareLink fayt queueSize s req type = some w) :
    w = req.circularLink queueSize := by
  unfold shareLink at h
  rcases hpoint : s.shareMap req.identifier with - | point <;> simp only [hpoint] at h
  · split_ifs at h
    exact (Option.some.inj h).symm
  · cases h

/-! ### Blocks of bytes -/

/-- The `n` bytes from `p` on. -/
def bytesAt (p : Word) (n : ℕ) : Set Word := {w | (w - p).toNat < n}

section Blocks

variable {p w : Word} {a b n m : ℕ}

/-- The distance of an address from a block that begins `a` bytes on. -/
theorem toNat_sub_add (p w : Word) (a : ℕ) (ha : a < 2 ^ 64) :
    (w - (p + BitVec.ofNat 64 a)).toNat = (2 ^ 64 - a + (w - p).toNat) % 2 ^ 64 := by
  have hp := p.isLt
  have hw := w.isLt
  rw [BitVec.toNat_sub, BitVec.toNat_add, BitVec.toNat_sub, BitVec.toNat_ofNat,
    Nat.mod_eq_of_lt ha]
  omega

/-- A block that begins `a` bytes on, and ends in time, is inside. -/
theorem bytesAt_subset (h : a + n ≤ m) (hm : m ≤ 2 ^ 64) :
    bytesAt (p + BitVec.ofNat 64 a) n ⊆ bytesAt p m := by
  intro w hw
  rcases Nat.eq_zero_or_pos n with rfl | hn
  · exact absurd hw (Nat.not_lt_zero _)
  have hw : (w - (p + BitVec.ofNat 64 a)).toNat < n := hw
  rw [toNat_sub_add p w a (by omega)] at hw
  have hlt := (w - p).isLt
  show (w - p).toNat < m
  omega

/-- Blocks that follow each other have no byte in common. -/
theorem bytesAt_disjoint (h : a + n ≤ b) (hm : b + m ≤ 2 ^ 64) :
    Disjoint (bytesAt (p + BitVec.ofNat 64 a) n) (bytesAt (p + BitVec.ofNat 64 b) m) := by
  rw [Set.disjoint_left]
  intro w hw hw'
  have hlt := (w - p).isLt
  rcases Nat.eq_zero_or_pos m with rfl | hm₀
  · exact absurd hw' (Nat.not_lt_zero _)
  have hw : (w - (p + BitVec.ofNat 64 a)).toNat < n := hw
  have hw' : (w - (p + BitVec.ofNat 64 b)).toNat < m := hw'
  rw [toNat_sub_add p w a (by omega)] at hw
  rw [toNat_sub_add p w b (by omega)] at hw'
  omega

end Blocks

/-! ### Links that fit -/

/-- The bytes that `circular_queue_init` is given. -/
def LinkSetup.dataBytes (w : LinkSetup) : ℕ := w.queueLength.toInt.toNat * 4

/-- **The link fits the region** of the request: the link, the queue and its data are apart and
in the region, and the limits of the link are those of a region with `length` bytes. -/
structure LinkSetup.Fits (w : LinkSetup) (queueSize : ℕ) (req : PortalReq) (length : ℤ) : Prop where
  queueLength_nonneg : 0 ≤ w.queueLength.toInt
  link_queue : Disjoint (bytesAt w.link portalLinkSize) (bytesAt w.queue queueSize)
  link_data : Disjoint (bytesAt w.link portalLinkSize) (bytesAt w.data w.dataBytes)
  queue_data : Disjoint (bytesAt w.queue queueSize) (bytesAt w.data w.dataBytes)
  link_inside : bytesAt w.link portalLinkSize ⊆ bytesAt req.addr req.length.toNat
  queue_inside : bytesAt w.queue queueSize ⊆ bytesAt req.addr req.length.toNat
  data_inside : bytesAt w.data w.dataBytes ⊆ bytesAt req.addr req.length.toNat
  limit : w.header.dataOffset.toInt + w.header.dataLimit.toInt = length
  limit_nonneg : 0 ≤ w.header.dataLimit.toInt

section Sizes

variable {queueSize : ℕ} {req : PortalReq} (hQ : portalLinkSize + queueSize < 2 ^ 31)

include hQ

theorem toNat_linkRest :
    (req.linkRest queueSize).toNat
      = (2 ^ 64 - (portalLinkSize + queueSize) + req.length.toNat) % 2 ^ 64 := by
  have hlt := req.length.isLt
  have hlink : portalLinkSize % 2 ^ 64 = portalLinkSize := Nat.mod_eq_of_lt (by omega)
  have hqueue : queueSize % 2 ^ 64 = queueSize := Nat.mod_eq_of_lt (by omega)
  rw [PortalReq.linkRest, BitVec.toNat_sub, BitVec.toNat_sub, BitVec.toNat_ofNat,
    BitVec.toNat_ofNat, hlink, hqueue]
  omega

theorem toInt_dataOffset :
    (req.circularLink queueSize).header.dataOffset.toInt = portalLinkSize + queueSize := by
  show (BitVec.setWidth 32 _).toInt = _
  rw [toInt_setWidth, BitVec.toNat_add, BitVec.toNat_ofNat, BitVec.toNat_ofNat]
  split_ifs <;> omega

/-- A length with room for the headers does not wrap. -/
theorem toNat_linkRest_of_room (hroom : portalLinkSize + queueSize ≤ req.length.toNat) :
    (req.linkRest queueSize).toNat = req.length.toNat - (portalLinkSize + queueSize) := by
  have hlt := req.length.isLt
  rw [toNat_linkRest hQ]
  omega

theorem toNat_queueLength (hroom : portalLinkSize + queueSize ≤ req.length.toNat) :
    (req.linkRest queueSize / 4).toNat
      = (req.length.toNat - (portalLinkSize + queueSize)) / 4 := by
  rw [BitVec.toNat_udiv, toNat_linkRest_of_room hQ hroom, show (4 : Word).toNat = 4 from rfl]

/-- **A length without room for the headers** gives a negative queue. -/
theorem queueLength_neg (hroom : req.length.toNat < portalLinkSize + queueSize) :
    (req.circularLink queueSize).queueLength.toInt < 0 := by
  show (BitVec.setWidth 32 _).toInt < 0
  rw [toInt_setWidth, BitVec.toNat_udiv, toNat_linkRest hQ, show (4 : Word).toNat = 4 from rfl]
  split_ifs <;> omega

/-- **The blocks of a link with room for its headers** are apart and in the region: a queue that
is not negative never has more elements than fit. -/
theorem fits_of_room {length : ℤ} (hroom : portalLinkSize + queueSize ≤ req.length.toNat)
    (hnonneg : 0 ≤ (req.circularLink queueSize).queueLength.toInt)
    (hlimit : (req.circularLink queueSize).header.dataOffset.toInt
      + (req.circularLink queueSize).header.dataLimit.toInt = length)
    (hlimit₀ : 0 ≤ (req.circularLink queueSize).header.dataLimit.toInt) :
    (req.circularLink queueSize).Fits queueSize req length := by
  have hlt := req.length.isLt
  have hbytes : portalLinkSize + queueSize + (req.circularLink queueSize).dataBytes
      ≤ req.length.toNat := by
    have hqueue : (req.circularLink queueSize).queueLength.toInt = _ :=
      toInt_setWidth (req.linkRest queueSize / 4)
    rw [toNat_queueLength hQ hroom] at hqueue
    unfold LinkSetup.dataBytes
    split_ifs at hqueue <;> omega
  have hlink : (req.circularLink queueSize).link = req.addr + BitVec.ofNat 64 0 := by
    show req.addr = _
    rw [BitVec.add_zero]
  have hdata : (req.circularLink queueSize).data
      = req.addr + BitVec.ofNat 64 (portalLinkSize + queueSize) := by
    show req.addr + _ + _ = _
    rw [BitVec.add_assoc, BitVec.ofNat_add]
  have hqueue : (req.circularLink queueSize).queue = req.addr + BitVec.ofNat 64 portalLinkSize :=
    rfl
  constructor
  case queueLength_nonneg => exact hnonneg
  case limit => exact hlimit
  case limit_nonneg => exact hlimit₀
  case link_queue =>
    rw [hlink, hqueue]
    exact bytesAt_disjoint (by omega) (by omega)
  case link_data =>
    rw [hlink, hdata]
    exact bytesAt_disjoint (by omega) (by omega)
  case queue_data =>
    rw [hqueue, hdata]
    exact bytesAt_disjoint (by omega) (by omega)
  case link_inside =>
    rw [hlink]
    exact bytesAt_subset (by omega) (by omega)
  case queue_inside =>
    rw [hqueue]
    exact bytesAt_subset (by omega) (by omega)
  case data_inside =>
    rw [hdata]
    exact bytesAt_subset (by omega) (by omega)

/-- A link that fits has room for its headers. -/
theorem LinkSetup.Fits.room {length : ℤ}
    (h : (req.circularLink queueSize).Fits queueSize req length) :
    portalLinkSize + queueSize ≤ req.length.toNat := by
  by_contra hroom
  exact absurd h.queueLength_nonneg (not_le.mpr (queueLength_neg hQ (not_le.mp hroom)))

end Sizes

/-- **When the link of a new share point fits its region.**  With the length that is stored in
the link: the region has room for the headers, and neither the number of elements nor the
length less a multiple of `2 ^ 32` passes an `int`.  With the length of the request: the data
behind the headers is shorter than `2 ^ 31` bytes. -/
theorem circular_link_fits_iff (fayt : PortalLib) (s : PortalState σ R) (req : PortalReq)
    (type : BitVec 32) (queueSize : ℕ) (w : LinkSetup)
    (hQ : portalLinkSize + queueSize < 2 ^ 31)
    (hlink : shareLink fayt queueSize s req type = some w) :
    (w.Fits queueSize req w.header.length.toInt ↔
      portalLinkSize + queueSize ≤ req.length.toNat ∧
      (req.length.toNat - (portalLinkSize + queueSize)) / 4 % 2 ^ 32 < 2 ^ 31 ∧
      portalLinkSize + queueSize + (req.length.toNat - (portalLinkSize + queueSize)) % 2 ^ 32
        < 2 ^ 31) ∧
    (w.Fits queueSize req req.length.toNat ↔
      portalLinkSize + queueSize ≤ req.length.toNat ∧
      req.length.toNat < 2 ^ 31 + (portalLinkSize + queueSize)) := by
  obtain rfl := shareLink_eq hlink
  have hlength : (req.circularLink queueSize).header.length.toInt = _ := toInt_setWidth req.length
  have hoffset : (req.circularLink queueSize).header.dataOffset.toInt = _ := toInt_dataOffset hQ
  have hqueue : (req.circularLink queueSize).queueLength.toInt = _ :=
    toInt_setWidth (req.linkRest queueSize / 4)
  have hdata : (req.circularLink queueSize).header.dataLimit.toInt = _ :=
    toInt_setWidth (req.linkRest queueSize)
  refine ⟨⟨fun hfits => ?_, fun hcond => ?_⟩, fun hfits => ?_, fun hcond => ?_⟩
  -- with the length that is stored
  · have hroom := hfits.room hQ
    have hlimit := hfits.limit
    have hlimit₀ := hfits.limit_nonneg
    have hqueue₀ := hfits.queueLength_nonneg
    rw [toNat_queueLength hQ hroom] at hqueue
    rw [toNat_linkRest_of_room hQ hroom] at hdata
    refine ⟨hroom, ?_, ?_⟩
    · split_ifs at hqueue <;> omega
    · split_ifs at hdata hlength <;> omega
  · obtain ⟨hroom, helems, hmod⟩ := hcond
    rw [toNat_queueLength hQ hroom, if_pos helems] at hqueue
    rw [toNat_linkRest_of_room hQ hroom, if_pos (by omega)] at hdata
    rw [if_pos (by omega)] at hlength
    exact fits_of_room hQ hroom (by omega) (by omega) (by omega)
  -- with the length of the request
  · have hroom := hfits.room hQ
    have hlimit := hfits.limit
    have hlimit₀ := hfits.limit_nonneg
    rw [toNat_linkRest_of_room hQ hroom] at hdata
    refine ⟨hroom, ?_⟩
    split_ifs at hdata <;> omega
  · obtain ⟨hroom, hlt⟩ := hcond
    rw [toNat_queueLength hQ hroom, if_pos (by omega)] at hqueue
    rw [toNat_linkRest_of_room hQ hroom, if_pos (by omega)] at hdata
    exact fits_of_room hQ hroom (by omega) (by omega) (by omega)

/-- A request for a new share point with a region of `length` bytes. -/
def linkReq (length : Word) : PortalReq where
  type := portalReqShare
  prot := portalProtRead ||| portalProtWrite
  identifier := "link"
  create := true
  addr := 0x400000
  length := length
  paddr := fun _ => 0x500000

theorem linkReq_link (length : Word) :
    shareLink portalLib 32 closed.kernel (linkReq length) linkCircular
      = some ((linkReq length).circularLink 32) := rfl

/-- A region of `0x10000` bytes, as the scheduler's queue has, gets a link that fits. -/
theorem circular_link_fits_scheduler :
    ((linkReq 0x10000).circularLink 32).Fits 32 (linkReq 0x10000)
      ((linkReq 0x10000).circularLink 32).header.length.toInt ∧
    ((linkReq 0x10000).circularLink 32).Fits 32 (linkReq 0x10000)
      (linkReq 0x10000).length.toNat := by
  obtain ⟨hstored, hreq⟩ := circular_link_fits_iff portalLib closed.kernel (linkReq 0x10000)
    linkCircular 32 _ (by decide) (linkReq_link 0x10000)
  exact ⟨hstored.mpr (by decide), hreq.mpr (by decide)⟩

/-- **A link that does not fit.**  A region of 16 bytes has no room for the headers, the request
is accepted, and the queue gets `-11` elements. -/
theorem circular_link_negative :
    ∃ w, shareLink portalLib 32 closed.kernel (linkReq 16) linkCircular = some w ∧
      w.queueLength.toInt = -11 ∧ w.header.dataLimit.toInt = -41 ∧
      ∀ length, ¬ w.Fits 32 (linkReq 16) length := by
  refine ⟨_, linkReq_link 16, by decide, by decide, fun length hfits => ?_⟩
  exact absurd hfits.queueLength_nonneg (by decide)

end Rock
