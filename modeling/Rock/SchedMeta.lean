/-
Rock/SchedMeta.lean

The table of scheduler descriptors that the kernel and the scheduler servers share
(`launch_schedulers` of kernel/core/server.c, servers/sched/sched.c).

The kernel writes one descriptor for each core into the region "SCHEDULER META", and
every server walks the region as an array of descriptors.  They do not mean the same
array:

* the kernel's `struct sched_descriptor` has three `int`s, the server's has four;
* the kernel writes from the start of the region, the server reads from `data`, behind
  the header of a `struct portal_link`;
* the server takes the length from `data_limit` of that header, which nobody writes:
  `portal_handle_share` has an empty branch for `LINK_RAW`.

The region comes from `pmm_alloc`, which clears it, and the second descriptor of the kernel
covers `data_limit` with zeros again: whatever the number of cores, the server sees an empty
table.  Main result: the two never agree (`schedMeta_never_agrees`).
-/
import Rock.Bytes

namespace Rock

/-! ### The two sides -/

/-- The fields that both declarations of `struct sched_descriptor` have. -/
structure SchedDescriptor where
  processorId : BitVec 32
  queueDefaultRefill : BitVec 32
  load : BitVec 32
  deriving DecidableEq, Repr

/-- `struct sched_descriptor` of the server. -/
structure ServerDescriptor extends SchedDescriptor where
  cid : BitVec 32
  deriving DecidableEq, Repr

/-- `sizeof(struct sched_descriptor)` in the kernel. -/
def kernelDescriptorSize : ℕ := 12

/-- `sizeof(struct sched_descriptor)` in the server. -/
def serverDescriptorSize : ℕ := 16

/-- `offsetof(struct portal_link, data_limit)`: the struct is packed, a `char` and four
`int`s before. -/
def linkDataLimit : ℕ := 17

/-- `offsetof(struct portal_link, data)`. -/
def linkData : ℕ := 25

/-- The three `int`s at `off`. -/
def descriptorAt (m : Bytes) (off : ℕ) : SchedDescriptor :=
  ⟨int32 m off, int32 m (off + 4), int32 m (off + 8)⟩

/-- `descriptors[i]` of the kernel. -/
def kernelDescriptor (m : Bytes) (i : ℕ) : SchedDescriptor :=
  descriptorAt m (kernelDescriptorSize * i)

/-- The kernel writes the descriptor of core `i`. -/
def writeDescriptor (m : Bytes) (i : ℕ) : Bytes :=
  let off := kernelDescriptorSize * i
  let m := putInt32 m off (BitVec.ofNat 32 i)
  let m := putInt32 m (off + 4) 0
  putInt32 m (off + 8) 0

/-- The region as `pmm_alloc` returns it. -/
def clearedRegion : Bytes := fun _ => 0

/-- The loop of `launch_schedulers` over `n` cores, on the region. -/
def launchSchedulers : ℕ → Bytes
  | 0 => clearedRegion
  | n + 1 => writeDescriptor (launchSchedulers n) n

/-- `(struct sched_descriptor*)sched_meta->data + i` of the server. -/
def serverDescriptor (m : Bytes) (i : ℕ) : ServerDescriptor :=
  let off := linkData + serverDescriptorSize * i
  { descriptorAt m off with cid := int32 m (off + 12) }

/-- `sched_meta->data_limit / sizeof(struct sched_descriptor)`: the `int` is extended to
`size_t`. -/
def serverBound (m : Bytes) : ℕ :=
  ((int32 m linkDataLimit).signExtend 64).toNat / serverDescriptorSize

/-- **The two sides agree** on the table of `n` descriptors: the server reads what the
kernel has written, walks all of it, and nothing beyond. -/
structure SchedMetaAgrees (m : Bytes) (n : ℕ) : Prop where
  values : ∀ i < n, (serverDescriptor m i).toSchedDescriptor = kernelDescriptor m i
  within : ∀ i < n, i < serverBound m
  beyond : ∀ i, n ≤ i → ¬ i < serverBound m

/-! ### What the kernel writes -/

section Kernel

variable {m : Bytes} {i n : ℕ}

/-- A descriptor is written in its own twelve bytes. -/
theorem writeDescriptor_of_outside {k : ℕ}
    (h : k < kernelDescriptorSize * i ∨ kernelDescriptorSize * i + kernelDescriptorSize ≤ k) :
    writeDescriptor m i k = m k := by
  unfold kernelDescriptorSize at h
  unfold writeDescriptor kernelDescriptorSize
  rw [putInt32_of_outside (by omega), putInt32_of_outside (by omega),
    putInt32_of_outside (by omega)]

/-- What is behind the table stays clear. -/
theorem launchSchedulers_of_le {k : ℕ} (h : kernelDescriptorSize * n ≤ k) :
    launchSchedulers n k = 0 := by
  induction n with
  | zero => rfl
  | succ n ih =>
      rw [Nat.mul_succ] at h
      rw [launchSchedulers, writeDescriptor_of_outside (.inr h), ih (by omega)]

theorem kernelDescriptor_writeDescriptor :
    kernelDescriptor (writeDescriptor m i) i = ⟨BitVec.ofNat 32 i, 0, 0⟩ := by
  unfold kernelDescriptor writeDescriptor descriptorAt
  dsimp only
  generalize kernelDescriptorSize * i = off
  -- each word is covered by none of the writes after its own
  have hfirst : int32 (putInt32 (putInt32 (putInt32 m off (BitVec.ofNat 32 i)) (off + 4) 0)
      (off + 8) 0) off = BitVec.ofNat 32 i := by
    rw [int32_congr fun k _ _ => putInt32_of_outside (by omega),
      int32_congr fun k _ _ => putInt32_of_outside (by omega), int32_putInt32]
  have hsecond : int32 (putInt32 (putInt32 (putInt32 m off (BitVec.ofNat 32 i)) (off + 4) 0)
      (off + 8) 0) (off + 4) = 0 := by
    rw [int32_congr fun k _ _ => putInt32_of_outside (by omega), int32_putInt32]
  rw [hfirst, hsecond, int32_putInt32]

/-- Later descriptors do not touch the earlier ones. -/
theorem launchSchedulers_of_lt {k : ℕ} (hi : i < n)
    (hk : k < kernelDescriptorSize * i + kernelDescriptorSize) :
    launchSchedulers n k = launchSchedulers (i + 1) k := by
  induction n with
  | zero => omega
  | succ n ih =>
      rcases Nat.eq_or_lt_of_le (Nat.le_of_lt_succ hi) with rfl | hlt
      · rfl
      · rw [launchSchedulers, writeDescriptor_of_outside (.inl ?_), ih hlt]
        unfold kernelDescriptorSize at hk ⊢
        omega

/-- **The kernel's table**: the descriptor of each core has its number and zeros. -/
theorem kernelDescriptor_launchSchedulers (hi : i < n) :
    kernelDescriptor (launchSchedulers n) i = ⟨BitVec.ofNat 32 i, 0, 0⟩ := by
  have hsame : ∀ k, kernelDescriptorSize * i ≤ k →
      k < kernelDescriptorSize * i + kernelDescriptorSize →
      launchSchedulers n k = launchSchedulers (i + 1) k :=
    fun k _ hk => launchSchedulers_of_lt hi hk
  rw [← kernelDescriptor_writeDescriptor (m := launchSchedulers i)]
  unfold kernelDescriptor descriptorAt
  unfold kernelDescriptorSize at *
  congr 1 <;> exact int32_congr fun k _ _ => hsame k (by omega) (by omega)

end Kernel

/-! ### What the server makes of it -/

/-- **The server's table is empty**: `data_limit` is behind the first descriptor, and the
second one covers it with zeros. -/
theorem serverBound_launchSchedulers {n : ℕ} (hn : 1 ≤ n) :
    serverBound (launchSchedulers n) = 0 := by
  have hlimit : int32 (launchSchedulers n) linkDataLimit = 0 := by
    refine int32_eq_zero_iff.mpr fun k h₁ h₂ => ?_
    unfold linkDataLimit at h₁ h₂
    rcases Nat.eq_or_lt_of_le hn with rfl | hlarge
    · exact launchSchedulers_of_le (by unfold kernelDescriptorSize; omega)
    · have hone := kernelDescriptor_launchSchedulers (i := 1) hlarge
      have hrefill : int32 (launchSchedulers n) 16 = 0 :=
        congrArg SchedDescriptor.queueDefaultRefill hone
      have hload : int32 (launchSchedulers n) 20 = 0 := congrArg SchedDescriptor.load hone
      rcases Nat.lt_or_ge k 20 with hlt | hge
      · exact int32_eq_zero_iff.mp hrefill k (by omega) (by omega)
      · exact int32_eq_zero_iff.mp hload k (by omega) (by omega)
  rw [serverBound, hlimit]
  rfl

/-- **Kernel and server never agree on the table**, for any number of cores: the server walks
none of the descriptors. -/
theorem schedMeta_never_agrees (n : ℕ) :
    ¬ SchedMetaAgrees (launchSchedulers (n + 1)) (n + 1) := by
  intro h
  have hwithin := h.within 0 (Nat.succ_pos n)
  rw [serverBound_launchSchedulers (Nat.succ_pos n)] at hwithin
  exact absurd hwithin (lt_irrefl 0)

/-- **Two cores.**  The descriptor of the second core is not what the server reads as its second
element, and the server walks none. -/
theorem schedMeta_disagrees :
    kernelDescriptor (launchSchedulers 2) 1 = ⟨1, 0, 0⟩ ∧
    (serverDescriptor (launchSchedulers 2) 1).toSchedDescriptor = ⟨0, 0, 0⟩ ∧
    serverBound (launchSchedulers 2) = 0 ∧ ¬ SchedMetaAgrees (launchSchedulers 2) 2 := by
  have hbound : serverBound (launchSchedulers 2) = 0 := serverBound_launchSchedulers (by decide)
  refine ⟨kernelDescriptor_launchSchedulers (by decide), by decide +kernel, hbound, fun h => ?_⟩
  have hwithin := h.within 0 (by decide)
  rw [hbound] at hwithin
  exact absurd hwithin (lt_irrefl 0)

end Rock
