import Gapxos.Lib.Bytes
import Gapxos.Lib.Keyed
import Mathlib.Data.List.GetD

/-! apic_parse_madt: the entries of the MADT, taken down one after the other. A record for a
local APIC is made by the first entry that names its UID, whichever kind that is. -/
namespace Gapxos
open Bytes Keyed

inductive LapicMode where
  | legacyApic
  | x2apic
  deriving DecidableEq

/- The bit fields are numbers of one and of two bits. -/
structure NmiLint where
  present : Nat
  lint : Nat
  polarity : Nat
  triggerMode : Nat
  deriving DecidableEq

structure Lapic where
  procUid : Nat
  lapicId : Nat
  mode : LapicMode
  enabled : Nat
  onlineCapable : Nat
  nmi : NmiLint
  deriving DecidableEq

structure IoApic where
  id : Nat
  gdiCount : Nat
  paddr : Nat
  gsiBase : Nat

structure IrqMap where
  gsi : Nat
  irq : Nat
  polarity : Nat
  triggerMode : Nat

structure NmiSource where
  gsi : Nat
  polarity : Nat
  triggerMode : Nat

/- The linked lists, first record first, and the static global_nmi_lint. -/
structure ApicInfo where
  lapic : List Lapic
  ioApic : List IoApic
  irqGsiMap : List IrqMap
  nmiSource : List NmiSource
  lapicAddr : Nat
  globalNmiLint : NmiLint

def ApicInfo.empty : ApicInfo := ⟨[], [], [], [], 0, ⟨0, 0, 0, 0⟩⟩

inductive MadtEntry where
  | registerLapic (procUid apicId flags : Nat) (mode : LapicMode)
  | registerIoapic (id addr gsiBase : Nat)
  | registerIso (irq gsi flags : Nat)
  | registerNmiSource (flags gsi : Nat)
  | setLapicNmiLint (procUid flags lintNo : Nat)
  | setLapicAddr (addr : Nat)
  | skip

def madtEntry (mem : Memory) (entry : Nat) : MadtEntry :=
  match read mem entry 1 with
  | 0 => .registerLapic (read mem (entry + 2) 1) (read mem (entry + 3) 1)
      (read mem (entry + 4) 4) .legacyApic
  | 9 => .registerLapic (read mem (entry + 4) 4) (read mem (entry + 8) 4)
      (read mem (entry + 12) 4) .x2apic
  | 1 => .registerIoapic (read mem (entry + 2) 1) (read mem (entry + 4) 4) (read mem (entry + 8) 4)
  | 2 => .registerIso (read mem (entry + 3) 1) (read mem (entry + 4) 4) (read mem (entry + 8) 2)
  | 3 => .registerNmiSource (read mem (entry + 2) 2) (read mem (entry + 4) 4)
  | 4 => .setLapicNmiLint (read mem (entry + 2) 1) (read mem (entry + 3) 2) (read mem (entry + 5) 1)
  | 10 => .setLapicNmiLint (read mem (entry + 4) 4) (read mem (entry + 2) 2)
      (read mem (entry + 8) 1)
  | 5 => .setLapicAddr (read mem (entry + 4) 8)
  | _ => .skip

/-- What malloc's memory holds for a new record, and the version register of an I/O APIC. -/
structure ApicWorld where
  fresh : List Lapic → Lapic
  ioApicVersion : Nat → Nat

section Register

variable (world : ApicWorld)

def setLapic (apicId flags : Nat) (mode : LapicMode) (x : Lapic) : Lapic :=
  { x with
    lapicId := apicId
    mode := mode
    enabled := flags % 2
    onlineCapable := flags / 2 % 2 }

def registerLapic (procUid apicId flags : Nat) (mode : LapicMode) (lapic : List Lapic) :
    List Lapic :=
  let new := world.fresh lapic
  upsert Lapic.procUid procUid (setLapic apicId flags mode)
    (setLapic apicId flags mode { new with
      procUid := procUid
      nmi := { new.nmi with present := 0 } }) lapic

def registerIoapic (id addr gsiBase : Nat) (ioApic : List IoApic) : List IoApic :=
  ⟨id, world.ioApicVersion addr / 2 ^ 16 % 256, addr, gsiBase⟩ :: ioApic

def registerIso (irq gsi flags : Nat) (irqGsiMap : List IrqMap) : List IrqMap :=
  ⟨gsi, irq, flags % 4, flags / 4 % 4⟩ :: irqGsiMap

def registerNmiSource (flags gsi : Nat) (nmiSource : List NmiSource) : List NmiSource :=
  ⟨gsi, flags % 4, flags / 4 % 4⟩ :: nmiSource

def nmiLint (flags lintNo : Nat) : NmiLint := ⟨1, lintNo % 2, flags % 4, flags / 4 % 4⟩

def setLapicNmiLint (procUid flags lintNo : Nat) (info : ApicInfo) : ApicInfo :=
  if procUid = 0xFF then { info with globalNmiLint := nmiLint flags lintNo }
  else { info with
    lapic := upsert Lapic.procUid procUid (fun x => { x with nmi := nmiLint flags lintNo })
      { world.fresh info.lapic with
        procUid := procUid
        nmi := nmiLint flags lintNo } info.lapic }

def ApicInfo.handle (info : ApicInfo) : MadtEntry → ApicInfo
  | .registerLapic procUid apicId flags mode =>
    { info with lapic := Gapxos.registerLapic world procUid apicId flags mode info.lapic }
  | .registerIoapic id addr gsiBase =>
    { info with ioApic := Gapxos.registerIoapic world id addr gsiBase info.ioApic }
  | .registerIso irq gsi flags =>
    { info with irqGsiMap := Gapxos.registerIso irq gsi flags info.irqGsiMap }
  | .registerNmiSource flags gsi =>
    { info with nmiSource := Gapxos.registerNmiSource flags gsi info.nmiSource }
  | .setLapicNmiLint procUid flags lintNo =>
    Gapxos.setLapicNmiLint world procUid flags lintNo info
  | .setLapicAddr addr => { info with lapicAddr := addr }
  | .skip => info

/-- The loop over the entries; an entry of length 0 keeps it going for ever. -/
def madtLoop (mem : Memory) (end_ : Nat) : Nat → Nat → ApicInfo → Option ApicInfo
  | 0, _, _ => none
  | n + 1, entry, info =>
    if entry < end_ then
      madtLoop mem end_ n (entry + read mem (entry + 1) 1)
        (info.handle world (madtEntry mem entry))
    else some info

def applyGlobalNmi (info : ApicInfo) : ApicInfo :=
  if info.globalNmiLint.present ≠ 0 then
    { info with lapic := info.lapic.map fun x => { x with nmi := { info.globalNmiLint with
      present := 1 } } }
  else info

def apicParseMadt (mem : Memory) (madt : Nat) (info : ApicInfo) : Option ApicInfo := do
  let length := read mem (madt + 4) 4
  let info ← madtLoop world mem (madt + length) (length + 1) (madt + 44)
    { info with lapicAddr := read mem (madt + 36) 4 }
  some (applyGlobalNmi info)

end Register

section Stored

def entryBytes (e : List (BitVec 8)) : Memory := fun i => e.getD i 0

def BytesAt (mem : Memory) (a : Nat) (e : List (BitVec 8)) : Prop :=
  ∀ i < e.length, mem (a + i) = entryBytes e i

def madtLength : Nat → Option Nat
  | 0 => some 8
  | 1 => some 12
  | 2 => some 10
  | 3 => some 8
  | 4 => some 6
  | 5 => some 12
  | 9 => some 16
  | 10 => some 12
  | _ => none

/-- An entry that says its own length, the one of its type if that is known. -/
def EntryOk (e : List (BitVec 8)) : Prop :=
  2 ≤ e.length ∧ read (entryBytes e) 1 1 = e.length ∧
    ∀ n ∈ madtLength (read (entryBytes e) 0 1), e.length = n

structure MadtAt (mem : Memory) (madt lapicAddr : Nat) (es : List (List (BitVec 8))) : Prop where
  length : read mem (madt + 4) 4 = 44 + es.flatten.length
  addr : read mem (madt + 36) 4 = lapicAddr
  bytes : BytesAt mem (madt + 44) es.flatten

def decode (e : List (BitVec 8)) : MadtEntry := madtEntry (entryBytes e) 0

variable {mem : Memory} {a k n : Nat} {e : List (BitVec 8)}

theorem BytesAt.read (stored : BytesAt mem a e) (inside : k + n ≤ e.length) :
    read mem (a + k) n = read (entryBytes e) k n := by
  induction n generalizing k with
  | zero => rfl
  | succ n ih => rw [Bytes.read, Bytes.read, stored k (by omega), Nat.add_assoc, ih (by omega)]

theorem BytesAt.split {e' : List (BitVec 8)} (stored : BytesAt mem a (e ++ e')) :
    BytesAt mem a e ∧ BytesAt mem (a + e.length) e' := by
  unfold BytesAt entryBytes at stored ⊢
  rw [List.length_append] at stored
  constructor
  · intro i inside
    rw [stored i (by omega), List.getD_append _ _ _ _ inside]
  · intro i inside
    rw [Nat.add_assoc, stored (e.length + i) (by omega),
      List.getD_append_right _ _ _ _ (Nat.le_add_right _ _), Nat.add_sub_cancel_left]

theorem madtEntry_decode (stored : BytesAt mem a e) (ok : EntryOk e) :
    madtEntry mem a = decode e := by
  obtain ⟨two, _, known⟩ := ok
  have type : Bytes.read mem a 1 = Bytes.read (entryBytes e) 0 1 :=
    stored.read (k := 0) (by omega)
  have get : ∀ k n, k + n ≤ e.length → Bytes.read mem (a + k) n = Bytes.read (entryBytes e) k n :=
    fun k n => stored.read
  unfold decode madtEntry
  rw [type]
  -- every field lies within the length of its type
  split
  case h_9 => rfl
  all_goals
    rename_i is
    have long := known _ (by rw [is]; rfl)
    simp (disch := omega) only [get, Nat.zero_add]

theorem madtLoop_entries (world : ApicWorld) {es : List (List (BitVec 8))} {end_ : Nat}
    (ok : ∀ e ∈ es, EntryOk e) (stored : BytesAt mem a es.flatten)
    (last : end_ = a + es.flatten.length) (enough : es.length < n) (info : ApicInfo) :
    madtLoop world mem end_ n a info =
      some ((es.map decode).foldl (fun info e => info.handle world e) info) := by
  induction es generalizing a n info with
  | nil =>
    obtain ⟨n, rfl⟩ := Nat.exists_eq_succ_of_ne_zero (Nat.ne_of_gt enough)
    rw [madtLoop, if_neg (by rw [last]; exact Nat.lt_irrefl a)]
    rfl
  | cons e es ih =>
    obtain ⟨n, rfl⟩ := Nat.exists_eq_succ_of_ne_zero (Nat.ne_of_gt (Nat.zero_lt_of_lt enough))
    obtain ⟨okE, okRest⟩ := List.forall_mem_cons.mp ok
    rw [List.flatten_cons] at stored last
    obtain ⟨first, rest⟩ := stored.split
    rw [List.length_append] at last
    have two := okE.1
    have size : Bytes.read mem (a + 1) 1 = e.length := (first.read two).trans okE.2.1
    rw [madtLoop, if_pos (by omega), size, madtEntry_decode first okE,
      ih okRest rest (by omega) (by simpa using enough)]
    rfl

theorem entries_short {es : List (List (BitVec 8))} (ok : ∀ e ∈ es, EntryOk e) :
    es.length ≤ es.flatten.length := by
  induction es with
  | nil => exact Nat.le_refl 0
  | cons e es ih =>
    obtain ⟨okE, okRest⟩ := List.forall_mem_cons.mp ok
    have := ih okRest
    have := okE.1
    rw [List.length_cons, List.flatten_cons, List.length_append]
    omega

theorem apicParseMadt_entries (world : ApicWorld) {es : List (List (BitVec 8))}
    {madt lapicAddr : Nat} (stored : MadtAt mem madt lapicAddr es) (ok : ∀ e ∈ es, EntryOk e)
    (info : ApicInfo) : apicParseMadt world mem madt info =
      some (applyGlobalNmi ((es.map decode).foldl (fun info e => info.handle world e)
        { info with lapicAddr := lapicAddr })) := by
  have short := entries_short ok
  have loop := madtLoop_entries world ok stored.bytes
    (show madt + (44 + es.flatten.length) = _ by omega)
    (show es.length < 44 + es.flatten.length + 1 by omega) { info with lapicAddr := lapicAddr }
  simp only [apicParseMadt, stored.length, stored.addr, loop, Option.bind_eq_bind,
    Option.bind_some]

end Stored

end Gapxos
