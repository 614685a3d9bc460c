import Hojicha.Pmm.Boot
import Hojicha.Vmm.Flags

/-!
# Mapping the kernel image

The check in front of the loop counts pages of the image; the loop goes on to the page behind the
rounded end, bound included.
-/

namespace Hojicha.Vmm

open Framework.Paging
open BitVec (toNat_add le_def)

/-- `pmm.kernel_end`, for an image of `size` bytes loaded at `base`. -/
def kernelEnd (base size : Haddr) : Haddr :=
  Pmm.pmmPageToAddrBase (Pmm.alignToNextPage (base + size))

def kernelPageCount (base size : Haddr) : Haddr := Pmm.pmmAddrToPage (base + size - base + 4095)

/-- Whether `check_kernel_size` returns. -/
def checkKernelSize (kernelPageCount : Haddr) : Bool := !decide (kernelPageCount > 1023 - 256)

abbrev KernelPde := Fin 512 → Haddr

inductive BootFailure where
  /-- `check_kernel_size` aborts. -/
  | tooLarge
  /-- A write behind the end of `kernel_pde`. -/
  | outside
deriving DecidableEq

/-- The loop over the pages of the kernel. It leaves the table before it can run forever. -/
def kernelLoop (kernelEnd : Haddr) (addr : Haddr) (kernelPage : Nat) (table : KernelPde) :
    Except BootFailure KernelPde :=
  if addr ≤ kernelEnd then
    if h : kernelPage < 512 then
      kernelLoop kernelEnd (addr + 4096) (kernelPage + 1)
        (Function.update table ⟨kernelPage, h⟩ (addr ||| PAGE_PRESENT ||| PAGE_WRITABLE))
    else .error .outside
  else .ok table
termination_by 512 - kernelPage

def mapKernelImage (base size : Haddr) : Except BootFailure KernelPde :=
  if checkKernelSize (kernelPageCount base size) then
    kernelLoop (kernelEnd base size) base 0 fun _ => 0
  else .error .tooLarge

def MapsImage (table : KernelPde) (base size : Haddr) : Prop :=
  ∀ offset < size.toNat, ∃ k : Fin 512,
    k.val = (base.toNat + offset) / 4096 - base.toNat / 4096 ∧ isPresent (table k) = true ∧
      (target (table k)).toNat = (base.toNat + offset) / 4096

def roundAddr (base : Haddr) (k : Nat) : Haddr := base + BitVec.ofNat 64 (4096 * k)

theorem roundAddr_zero (base : Haddr) : roundAddr base 0=base := by
  simp [roundAddr]

theorem roundAddr_succ (base : Haddr) (k : Nat) :
    roundAddr base k + 4096=roundAddr base (k + 1) := by
  rw [roundAddr,roundAddr,BitVec.add_assoc,Nat.mul_succ,BitVec.ofNat_add]
  rfl

theorem roundAddr_toNat {base : Haddr} {k : Nat} (h : base.toNat + 4096 * k<2 ^ 64) :
    (roundAddr base k).toNat=base.toNat + 4096 * k := by
  rw [roundAddr,toNat_add,BitVec.toNat_ofNat,Nat.add_mod_mod,Nat.mod_eq_of_lt h]

def kernelEntry (base : Haddr) (k : Nat) : Haddr :=
  roundAddr base k ||| PAGE_PRESENT ||| PAGE_WRITABLE

theorem kernelEntry_present (base : Haddr) (k : Nat) : isPresent (kernelEntry base k)=true := by
  rw [kernelEntry,isPresent_or,isPresent_or,show isPresent PAGE_PRESENT=true by decide,
    Bool.or_true,Bool.true_or]

theorem kernelEntry_target (base : Haddr) (k : Nat) :
    (target (kernelEntry base k)).toNat=(roundAddr base k).toNat / 4096 % 2 ^ 40 := by
  have hflags : target PAGE_PRESENT=0 ∧ target PAGE_WRITABLE=0 := by decide
  rw [kernelEntry,target_or,target_or,hflags.1,hflags.2]
  simp [target,Nat.shiftRight_eq_div_pow]

section Loop

variable {base stop : Haddr} {n j : Nat} (table : KernelPde)

theorem kernelLoop_ends (hn : n≤512) (hj : j≤n)
    (hgo : ∀ i, j ≤ i → i<n → roundAddr base i ≤ stop) (hstop : ¬ roundAddr base n ≤ stop) :
    kernelLoop stop (roundAddr base j) j table =
      .ok fun k => if j≤k.val ∧ k.val<n then kernelEntry base k else table k := by
  obtain ⟨d,rfl⟩ := Nat.exists_eq_add_of_le hj
  induction d generalizing j table with
  | zero =>
    rw [Nat.add_zero] at hstop
    rw [kernelLoop,if_neg hstop]
    congr 1
    funext k
    exact (if_neg (by omega)).symm
  | succ d ih =>
    rw [kernelLoop,if_pos (hgo j (le_refl _) (by omega)),dif_pos (by omega),roundAddr_succ]
    have hadd : j+1+d=j+(d+1) := by omega
    rw [ih _ (by omega) (by omega) (fun i h1 h2 => hgo i (by omega) (by omega)) (hadd ▸ hstop),hadd]
    congr 1
    funext k
    by_cases hk : k.val=j
    · subst hk
      simp [kernelEntry]
    · have hne : k≠⟨j,by omega⟩ := fun h => hk (congrArg Fin.val h)
      rw [Function.update_of_ne hne]
      exact if_congr (by omega) rfl rfl

/-- A loop that does not stop within 512 rounds writes behind the table. -/
theorem kernelLoop_outside (hgo : ∀ i, j ≤ i → i≤512 → roundAddr base i ≤ stop) (hj : j≤512) :
    kernelLoop stop (roundAddr base j) j table = .error .outside := by
  obtain ⟨d,hd⟩ := Nat.exists_eq_add_of_le hj
  induction d generalizing j table with
  | zero =>
    rw [kernelLoop,if_pos (hgo j (le_refl _) hj),dif_neg (by omega)]
  | succ d ih =>
    rw [kernelLoop,if_pos (hgo j (le_refl _) hj),dif_pos (by omega),roundAddr_succ]
    exact ih _ (fun i h1 h2 => hgo i (by omega) h2) (by omega) (by omega)

theorem kernelLoop_cases (base stop : Haddr) :
    (∃ n≤512, (∀ i<n, roundAddr base i ≤ stop) ∧ ¬ roundAddr base n ≤ stop ∧
      kernelLoop stop base 0 (fun _ => 0) =
        .ok fun k => if k.val<n then kernelEntry base k else 0) ∨
    (∀ i≤512, roundAddr base i ≤ stop) ∧
      kernelLoop stop base 0 (fun _ => 0) = .error .outside := by
  by_cases hgo : ∀ i≤512, roundAddr base i ≤ stop
  · have hrun := kernelLoop_outside (fun _ => 0) (fun i _ hi => hgo i hi) (Nat.zero_le 512)
    rw [roundAddr_zero] at hrun
    exact .inr ⟨hgo,hrun⟩
  · have hex : ∃ i, i≤512 ∧ ¬ roundAddr base i ≤ stop := by
      push Not at hgo
      obtain ⟨i,hi,hlt⟩ := hgo
      exact ⟨i,hi,hlt⟩
    obtain ⟨hle,hstop⟩ := Nat.find_spec hex
    have hbefore : ∀ i<Nat.find hex, roundAddr base i ≤ stop := by
      intro i hi
      by_contra hno
      exact Nat.find_min hex hi ⟨by omega,hno⟩
    have hrun := kernelLoop_ends (fun _ => 0) hle (Nat.zero_le _)
      (fun i _ hi => hbefore i hi) hstop
    rw [roundAddr_zero] at hrun
    refine .inl ⟨Nat.find hex,hle,hbefore,hstop,?_⟩
    simpa using hrun

end Loop

/-- How often the loop writes, where no address wraps. -/
def kernelRounds (base size : Haddr) : Nat :=
  (((base.toNat + size.toNat) / 4096 + 1) * 4096 - base.toNat) / 4096 + 1

theorem kernelEnd_toNat (base size : Haddr) :
    (kernelEnd base size).toNat=((base + size).toNat / 4096 + 1) * 4096 % 2 ^ 64 := by
  rw [kernelEnd,Pmm.pmmPageToAddrBase,BitVec.toNat_shiftLeft,Pmm.alignToNextPage_toNat,
    Nat.shiftLeft_eq]

section Image

variable {base size : Haddr}

section

variable (hsmall : base.toNat + size.toNat ≤ 2 ^ 52)
include hsmall

theorem roundAddr_le_kernelEnd {i : Nat}
    (hi : i≤512) : roundAddr base i≤kernelEnd base size ↔ i<kernelRounds base size := by
  have hsum : (base+size).toNat=base.toNat+size.toNat := by
    rw [toNat_add,Nat.mod_eq_of_lt (by omega)]
  have hend := kernelEnd_toNat base size
  have hround : (roundAddr base i).toNat=base.toNat+4096 * i := roundAddr_toNat (by omega)
  rw [hsum,Nat.mod_eq_of_lt (by omega)] at hend
  rw [le_def,hround,hend,kernelRounds]
  omega

theorem rounds_eq {n : Nat} (hn : n≤512) (hgo : ∀ i<n, roundAddr base i≤kernelEnd base size)
    (hstop : ¬ roundAddr base n≤kernelEnd base size) : n=kernelRounds base size := by
  have hlt := (roundAddr_le_kernelEnd hsmall hn).not.mp hstop
  rcases Nat.eq_zero_or_pos n with rfl | hpos
  · omega
  · have hlast := (roundAddr_le_kernelEnd hsmall (by omega)).mp (hgo (n-1) (by omega))
    omega

theorem mapsImage_of_rounds (hrounds : kernelRounds base size≤512) :
    MapsImage (fun k => if k.val<kernelRounds base size then kernelEntry base k else 0) base
      size := by
  intro offset hoffset
  have hin : (base.toNat+offset) / 4096-base.toNat / 4096<kernelRounds base size := by
    unfold kernelRounds
    omega
  refine ⟨⟨(base.toNat+offset) / 4096-base.toNat / 4096,by omega⟩,rfl,?_,?_⟩
  · simp only [hin,if_true,kernelEntry_present]
  · simp only [hin,if_true,kernelEntry_target]
    rw [roundAddr_toNat (by omega)]
    omega

end

/-- An image with a byte in it is mapped only into physical memory. -/
theorem MapsImage.small {table : KernelPde} (h : MapsImage table base size) (hpos : size≠0) :
    base.toNat + size.toNat≤2 ^ 52 := by
  have hsize : 0<size.toNat := Nat.pos_of_ne_zero fun h0 => hpos (BitVec.eq_of_toNat_eq h0)
  obtain ⟨k,-,-,htarget⟩ := h (size.toNat-1) (by omega)
  have hlt := (target (table k)).isLt
  omega

/-- With no byte to map the loop stops, except for one load address, from which it reaches the end
of the address space and starts again. -/
theorem loop_stops_of_empty (hbase : base.toNat≠2 ^ 64 - 8192) :
    ∃ i≤512, ¬ roundAddr base i≤kernelEnd base 0 := by
  have hlt := base.isLt
  have hend := kernelEnd_toNat base 0
  rw [show base+0=base from BitVec.add_zero base] at hend
  by_cases htop : 2 ^ 64≤base.toNat+4096
  · refine ⟨0,by omega,?_⟩
    rw [roundAddr_zero,le_def,hend]
    omega
  by_cases haligned : base.toNat % 4096=0
  · refine ⟨2,by omega,?_⟩
    rw [le_def,roundAddr_toNat (by omega),hend]
    omega
  · refine ⟨1,by omega,?_⟩
    rw [le_def,roundAddr_toNat (by omega),hend]
    omega

theorem loop_runs_on (hbase : base.toNat=2 ^ 64 - 8192) (i : Nat) :
    roundAddr base i≤kernelEnd base 0 := by
  have hend := kernelEnd_toNat base 0
  rw [show base+0=base from BitVec.add_zero base] at hend
  rw [le_def,hend,roundAddr,toNat_add,BitVec.toNat_ofNat,hbase]
  omega

end Image

/-- For an image that passes the check, the loop stays inside `kernel_pde` and maps every page of
the image exactly if it takes at most 512 rounds and the image lies in physical memory. (An image
without a byte is mapped wherever the loop ends.) -/
theorem kernel_image_mapped_iff (base size : Haddr)
    (hcheck : checkKernelSize (kernelPageCount base size) = true) :
    (∃ table, mapKernelImage base size = .ok table ∧ MapsImage table base size) ↔
      (base.toNat + size.toNat ≤ 2 ^ 52 ∧ kernelRounds base size ≤ 512) ∨
        (size = 0 ∧ base.toNat ≠ 2 ^ 64 - 8192) := by
  rw [mapKernelImage,if_pos hcheck]
  rcases kernelLoop_cases base (kernelEnd base size) with
    ⟨n,hn,hgo,hstop,hrun⟩ | ⟨hgo,hrun⟩
  · constructor
    · rintro ⟨table,hok,hmaps⟩
      by_cases h0 : size=0
      · subst h0
        refine .inr ⟨rfl,fun hbase => hstop ?_⟩
        exact loop_runs_on hbase n
      · have hsmall := hmaps.small h0
        have hrounds := rounds_eq hsmall hn hgo hstop
        exact .inl ⟨hsmall,hrounds ▸ hn⟩
    · rintro (⟨hsmall,hrounds⟩ | ⟨rfl,-⟩)
      · have hn' := rounds_eq hsmall hn hgo hstop
        rw [hn'] at hrun
        exact ⟨_,hrun,mapsImage_of_rounds hsmall hrounds⟩
      · exact ⟨_,hrun,fun offset hoffset => absurd hoffset (by simp)⟩
  · constructor
    · rintro ⟨table,hok,-⟩
      rw [hrun] at hok
      cases hok
    · rintro (⟨hsmall,hrounds⟩ | ⟨rfl,hbase⟩)
      · have hlt := (roundAddr_le_kernelEnd hsmall (le_refl 512)).mp (hgo 512 (le_refl _))
        omega
      · obtain ⟨i,hi,hno⟩ := loop_stops_of_empty hbase
        exact absurd (hgo i hi) hno

theorem kernel_image_mapped_iff_one_mib :
    checkKernelSize (kernelPageCount 0x200000 0x100000) = true ∧
      ∃ table, mapKernelImage 0x200000 0x100000 = .ok table ∧
        MapsImage table 0x200000 0x100000 := by
  refine ⟨by decide,?_⟩
  exact (kernel_image_mapped_iff 0x200000 0x100000 (by decide)).mpr (.inl ⟨by decide,by decide⟩)

/-- An image of 511 pages passes the check, and its mapping needs 513 entries. -/
theorem image_of_511_pages_overruns :
    checkKernelSize (kernelPageCount 0x200000 0x1FF000) = true ∧
      mapKernelImage 0x200000 0x1FF000 = .error .outside := by
  refine ⟨by decide,?_⟩
  rw [mapKernelImage,if_pos (by decide)]
  have hgo : ∀ i, 0 ≤ i → i≤512 → roundAddr 0x200000 i≤kernelEnd 0x200000 0x1FF000 := by
    intro i _ hi
    exact (roundAddr_le_kernelEnd (by decide) hi).mpr (Nat.lt_of_le_of_lt hi (by decide))
  have hrun := kernelLoop_outside (fun _ => 0) hgo (Nat.zero_le 512)
  rwa [roundAddr_zero] at hrun

end Hojicha.Vmm
