import Gapxos.Apic.Records

/-! Two tables with the same entries in another order give the same records; and how the
records stand to the layout that ACPI gives to the entries. -/
namespace Gapxos
open Bytes Keyed

/-- The things `p` takes from the entries, in the order of the table. -/
def named {β : Type} (p : MadtEntry → Option β) (es : List (List (BitVec 8))) : List β :=
  (es.map decode).filterMap p

/-- One local-APIC entry for a UID, and one at most of what else is addressed to it or to all. -/
structure UniqueEntries (es : List (List (BitVec 8))) : Prop where
  lapic : ∀ u, (named (MadtEntry.lapicOf u) es).length ≤ 1
  addressed : ∀ u ≠ 0xFF, named (MadtEntry.nmiOf u) es ≠ [] →
    (named (MadtEntry.lapicOf u) es).length = 1
  nmi : ∀ u, (named (MadtEntry.nmiOf u) es).length ≤ 1
  addr : (named MadtEntry.addrOf es).length ≤ 1

/-- A record as the map from UIDs shows it: its NMI settings only if there are any. -/
def Lapic.view (x : Lapic) : LapicFields × Option NmiLint := (x.fields, x.settings)

/-- A record for each UID of a local-APIC entry, and no other. -/
def OneRecordEach (es : List (List (BitVec 8))) (info : ApicInfo) : Prop :=
  (info.lapic.map Lapic.procUid).Nodup ∧
    ∀ u, u ∈ info.lapic.map Lapic.procUid ↔ ∃ e ∈ es, ((decode e).lapicOf u).isSome

section Order

variable {blank : LapicFields → Prop} {addr : Nat} {es es' : List (List (BitVec 8))}
  {info info' : ApicInfo}

theorem lastLapic_isSome (es : List (List (BitVec 8))) (u : Nat) :
    (lastLapic es u).isSome ↔ ∃ e ∈ es, ((decode e).lapicOf u).isSome :=
  lastOf_map_isSome

theorem Parsed.isSome (parsed : Parsed blank addr es info) (unique : UniqueEntries es) (u : Nat) :
    (info.record u).isSome ↔ (lastLapic es u).isSome := by
  rw [Option.isSome_iff_ne_none, Option.isSome_iff_ne_none, ne_eq, ne_eq, not_iff_not,
    parsed.missing]
  refine and_iff_left_of_imp fun none_ => ?_
  unfold addressed
  by_cases all : u = 0xFF
  · exact if_pos all
  · rw [if_neg all, lastOf, List.getLast?_eq_none_iff]
    by_contra some_
    have one := unique.addressed u all some_
    rw [lastLapic, lastOf, List.getLast?_eq_none_iff] at none_
    rw [named, none_] at one
    cases one

theorem Parsed.oneRecordEach (parsed : Parsed blank addr es info) (unique : UniqueEntries es) :
    OneRecordEach es info := by
  refine ⟨parsed.nodup, fun u => ?_⟩
  rw [← find_isSome, ← lastLapic_isSome]
  exact parsed.isSome unique u

theorem Parsed.view (parsed : Parsed blank addr es info) (unique : UniqueEntries es) (u : Nat) :
    (info.record u).map Lapic.view = (lastLapic es u).map fun f => (f, lastNmi es u) := by
  have same := parsed.isSome unique u
  cases found : info.record u with
  | none =>
    rw [((parsed.missing u).mp found).1]
    rfl
  | some x =>
    rw [found] at same
    obtain ⟨f, last⟩ := Option.isSome_iff_exists.mp (same.mp rfl)
    obtain ⟨fields, _, settings⟩ := parsed.found u x found
    rw [last, Option.map_some, Option.map_some, Lapic.view, fields f last, settings]

theorem lastNmi_perm (perm : es.Perm es') (unique : UniqueEntries es) (u : Nat) :
    lastNmi es u = lastNmi es' u := by
  have last : ∀ u, lastOf (MadtEntry.nmiOf u) (es.map decode) =
      lastOf (MadtEntry.nmiOf u) (es'.map decode) := fun u =>
    lastOf_perm (perm.map decode) (unique.nmi u)
  rw [lastNmi, lastNmi, addressed, addressed, last, last]

end Order

theorem UniqueEntries.perm {es es' : List (List (BitVec 8))} (unique : UniqueEntries es)
    (perm : es.Perm es') : UniqueEntries es' := by
  have same : ∀ {β : Type} (p : MadtEntry → Option β), (named p es).Perm (named p es') :=
    fun p => (perm.map decode).filterMap p
  constructor
  · intro u
    rw [← (same _).length_eq]
    exact unique.lapic u
  · intro u notAll some_
    rw [← (same _).length_eq]
    apply unique.addressed u notAll
    intro none_
    have empty := same (MadtEntry.nmiOf u)
    rw [none_] at empty
    exact some_ empty.nil_eq.symm
  · intro u
    rw [← (same _).length_eq]
    exact unique.nmi u
  · rw [← (same _).length_eq]
    exact unique.addr

theorem madt_order_free (mem mem' : Memory) (madt madt' addr : Nat)
    (es es' : List (List (BitVec 8))) (world world' : ApicWorld)
    (stored : MadtAt mem madt addr es) (stored' : MadtAt mem' madt' addr es')
    (ok : ∀ e ∈ es, EntryOk e) (unique : UniqueEntries es) (perm : es.Perm es') :
    ∃ info info', apicParseMadt world mem madt ApicInfo.empty = some info ∧
      apicParseMadt world' mem' madt' ApicInfo.empty = some info' ∧
      OneRecordEach es info ∧ OneRecordEach es' info' ∧
      (∀ u, (info.record u).map Lapic.view = (info'.record u).map Lapic.view) ∧
      info.lapicAddr = info'.lapicAddr := by
  have ok' : ∀ e ∈ es', EntryOk e := fun e inside => ok e (perm.mem_iff.mpr inside)
  -- no field of a record is left as malloc gave it
  obtain ⟨info, run, parsed⟩ :=
    apicParseMadt_parsed (fun _ => True) world (fun _ => trivial) stored ok
  obtain ⟨info', run', parsed'⟩ :=
    apicParseMadt_parsed (fun _ => True) world' (fun _ => trivial) stored' ok'
  have unique' := unique.perm perm
  refine ⟨info, info', run, run', parsed.oneRecordEach unique,
    parsed'.oneRecordEach unique', ?_, ?_⟩
  · intro u
    have lapic : lastLapic es u = lastLapic es' u :=
      lastOf_perm (perm.map decode) (unique.lapic u)
    rw [parsed.view unique, parsed'.view unique', lapic, lastNmi_perm perm unique]
  · rw [parsed.lapicAddr, parsed'.lapicAddr, lastOf_perm (perm.map decode) unique.addr]

/-- A MADT of these entries at 0, its header of 44 bytes first. -/
def madtMemory (es : List (List (BitVec 8))) : Memory :=
  entryBytes ([0x41, 0x50, 0x49, 0x43, 44 + BitVec.ofNat 8 es.flatten.length, 0, 0, 0] ++
    List.replicate 28 0 ++ [0, 0, 0xE0, 0xFE, 0, 0, 0, 0] ++ es.flatten)

/-- Memory that malloc did not clear. -/
def dirtyWorld : ApicWorld := ⟨fun _ => ⟨7, 7, .x2apic, 1, 1, ⟨1, 1, 3, 3⟩⟩, fun _ => 0⟩

def lapicOne : List (BitVec 8) := [0, 8, 1, 5, 1, 0, 0, 0]

def nmiOne : List (BitVec 8) := [4, 6, 1, 5, 0, 1]

theorem madt_order_free_two :
    ∃ info info', apicParseMadt dirtyWorld (madtMemory [nmiOne, lapicOne]) 0 ApicInfo.empty =
        some info ∧
      apicParseMadt dirtyWorld (madtMemory [lapicOne, nmiOne]) 0 ApicInfo.empty = some info' ∧
      (info.record 1).map Lapic.view = (info'.record 1).map Lapic.view := by
  -- a UID other than 1 is not named
  have lapic : ∀ u ≠ 1, named (MadtEntry.lapicOf u) [nmiOne, lapicOne] = [] := by
    intro u other
    have no : (decode lapicOne).lapicOf u = none := if_neg (Ne.symm other)
    have no' : (decode nmiOne).lapicOf u = none := rfl
    simp only [named, List.map_cons, List.map_nil, List.filterMap_cons, no, no', List.filterMap_nil]
  have nmi : ∀ u ≠ 1, named (MadtEntry.nmiOf u) [nmiOne, lapicOne] = [] := by
    intro u other
    have no : (decode nmiOne).nmiOf u = none := if_neg (Ne.symm other)
    have no' : (decode lapicOne).nmiOf u = none := rfl
    simp only [named, List.map_cons, List.map_nil, List.filterMap_cons, no, no', List.filterMap_nil]
  have unique : UniqueEntries [nmiOne, lapicOne] := by
    constructor
    · intro u
      by_cases one : u = 1
      · rw [one]; decide
      · rw [lapic u one]; decide
    · intro u _ some_
      by_cases one : u = 1
      · rw [one]; decide
      · exact absurd (nmi u one) some_
    · intro u
      by_cases one : u = 1
      · rw [one]; decide
      · rw [nmi u one]; decide
    · decide
  obtain ⟨info, info', run, run', _, _, same, _⟩ := madt_order_free (madtMemory [nmiOne, lapicOne])
    (madtMemory [lapicOne, nmiOne]) 0 0 0xFEE00000 _ _ dirtyWorld dirtyWorld
    ⟨by decide, by decide, by unfold BytesAt; decide⟩
    ⟨by decide, by decide, by unfold BytesAt; decide⟩
    (by unfold EntryOk; decide) unique (List.Perm.swap lapicOne nmiOne [])
  exact ⟨info, info', run, run', same 1⟩

end Gapxos
