import Gapxos.Apic.Layout

/-! The NMI settings of the records against the entries that address them. The parser takes one
UID, 0xFF, for all processors, whatever the width of the entry, and makes a record for every
other UID that it meets. -/
namespace Gapxos
open Bytes Keyed

/-- What an entry tells processor `u` about its NMI under ACPI. All processors are 0xFF in an
entry of type 4 and 0xFFFFFFFF in one of type 10. -/
def acpiNmi (u : Nat) (e : List (BitVec 8)) : Option NmiLint :=
  match read (entryBytes e) 0 1 with
  | 4 =>
    if read (entryBytes e) 2 1 = u ∨ read (entryBytes e) 2 1 = 0xFF then
      some (nmiLint (read (entryBytes e) 3 2) (read (entryBytes e) 5 1))
    else none
  | 10 =>
    if read (entryBytes e) 4 4 = u ∨ read (entryBytes e) 4 4 = 0xFFFFFFFF then
      some (nmiLint (read (entryBytes e) 2 2) (read (entryBytes e) 8 1))
    else none
  | _ => none

/-- Settings if an entry addresses the processor, and only then, with the values of such an
entry. -/
def NmiFrom (es : List (List (BitVec 8))) (u : Nat) (m : Option NmiLint) : Prop :=
  (m.isSome ↔ ∃ e ∈ es, (acpiNmi u e).isSome) ∧ ∀ v ∈ m, ∃ e ∈ es, acpiNmi u e = some v

/-- A local-APIC entry names the processor. -/
def AcpiNamed (es : List (List (BitVec 8))) (u : Nat) : Prop :=
  ∃ l ∈ es.filterMap acpiLapic, l.uid = u

def NmiRight (es : List (List (BitVec 8))) (info : ApicInfo) : Prop :=
  ∀ x ∈ info.lapic, NmiFrom es x.procUid x.settings ∧ AcpiNamed es x.procUid

/- The condition: which UIDs the parser meets, and what it takes from the entries for all. -/
def Occurs (es : List (List (BitVec 8))) (u : Nat) : Prop :=
  ∃ e ∈ es, ((decode e).lapicOf u).isSome ∨ u ≠ 0xFF ∧ ((decode e).nmiOf u).isSome

def wideAll (e : List (BitVec 8)) : Prop :=
  read (entryBytes e) 0 1 = 10 ∧ read (entryBytes e) 4 4 = 0xFFFFFFFF

/-- The last entry of UID 0xFF has the values of one that addresses the processor. If there is
none, an entry of type 10 for all comes with one for the processor. -/
def NmiHeard (es : List (List (BitVec 8))) (u : Nat) : Prop :=
  match lastOf (MadtEntry.nmiOf 0xFF) (es.map decode) with
  | some v => ∃ e ∈ es, acpiNmi u e = some v
  | none => (∃ e ∈ es, wideAll e) → ∃ e ∈ es, ((decode e).nmiOf u).isSome

section Heard

variable {blank : LapicFields → Prop} {addr u : Nat} {es : List (List (BitVec 8))}
  {info : ApicInfo} {e : List (BitVec 8)}

theorem acpiNmi_of_nmiOf {v : NmiLint} (said : (decode e).nmiOf u = some v) :
    acpiNmi u e = some v := by
  unfold decode madtEntry at said
  unfold acpiNmi
  split at said <;> simp_all [MadtEntry.nmiOf]

theorem acpiNmi_isSome (quiet : (decode e).nmiOf 0xFF = none) :
    (acpiNmi u e).isSome ↔ ((decode e).nmiOf u).isSome ∨ wideAll e := by
  unfold decode madtEntry at *
  unfold acpiNmi wideAll
  simp only [Nat.zero_add] at *
  split at quiet <;> simp_all [MadtEntry.nmiOf]

theorem nmiFrom_lastNmi (es : List (List (BitVec 8))) (u : Nat) :
    NmiFrom es u (lastNmi es u) ↔ NmiHeard es u := by
  unfold NmiFrom NmiHeard lastNmi
  cases all : lastOf (MadtEntry.nmiOf 0xFF) (es.map decode) with
  | some v =>
    simp only [Option.some_or, Option.isSome_some, true_iff, Option.mem_some_iff, forall_eq']
    constructor
    · exact And.right
    · intro same
      obtain ⟨e, inside, said⟩ := same
      exact ⟨⟨e, inside, by rw [said]; rfl⟩, e, inside, said⟩
  | none =>
    have quiet : ∀ e ∈ es, (decode e).nmiOf 0xFF = none := by
      intro e inside
      by_contra said
      have := lastOf_map_isSome.mpr ⟨e, inside, Option.isSome_iff_ne_none.mpr said⟩
      rw [all] at this
      cases this
    -- with no entry of UID 0xFF its own entries are like those of the others
    have own : addressed (es.map decode) u = lastOf (MadtEntry.nmiOf u) (es.map decode) := by
      unfold addressed
      split
      · rename_i is
        rw [is, all]
      · rfl
    have heard : (∃ e ∈ es, (acpiNmi u e).isSome) ↔
        (∃ e ∈ es, ((decode e).nmiOf u).isSome) ∨ ∃ e ∈ es, wideAll e := by
      rw [← exists_or]
      refine exists_congr fun e => ?_
      rw [← and_or_left]
      exact and_congr_right fun inside => acpiNmi_isSome (quiet e inside)
    rw [Option.none_or, own, lastOf_map_isSome, heard]
    constructor
    · intro right wide
      exact right.1.mpr (.inr wide)
    · intro comes
      refine ⟨⟨.inl, fun either => either.elim id comes⟩, fun v last => ?_⟩
      obtain ⟨e, inside, said⟩ := lastOf_mem last
      obtain ⟨b, there, rfl⟩ := List.mem_map.mp inside
      exact ⟨b, there, acpiNmi_of_nmiOf said⟩

theorem Parsed.occurs (parsed : Parsed blank addr es info) (u : Nat) :
    u ∈ info.lapic.map Lapic.procUid ↔ Occurs es u := by
  have own : (addressed (es.map decode) u).isSome ↔
      ∃ e ∈ es, u ≠ 0xFF ∧ ((decode e).nmiOf u).isSome := by
    unfold addressed
    by_cases all : u = 0xFF
    · simp [all]
    · rw [if_neg all, lastOf_map_isSome]
      simp [all]
  have found : (info.record u).isSome ↔
      (Gapxos.lastLapic es u).isSome ∨ (addressed (es.map decode) u).isSome := by
    rw [← not_iff_not, not_or]
    simpa using parsed.missing u
  rw [← find_isSome, ← ApicInfo.record, found, lastLapic_isSome, own, ← exists_or]
  simp only [Occurs, and_or_left]

theorem Parsed.nmiRight (parsed : Parsed blank addr es info) :
    NmiRight es info ↔ ∀ u, Occurs es u → NmiHeard es u ∧ AcpiNamed es u := by
  constructor
  · intro right u occurs
    obtain ⟨x, inside, rfl⟩ := List.mem_map.mp ((parsed.occurs u).mpr occurs)
    obtain ⟨settings, named⟩ := right x inside
    rw [(parsed.found _ x (find_of_mem parsed.nodup inside)).2.2, nmiFrom_lastNmi] at settings
    exact ⟨settings, named⟩
  · intro all x inside
    obtain ⟨heard, named⟩ :=
      all x.procUid ((parsed.occurs _).mp (List.mem_map_of_mem inside))
    rw [(parsed.found _ x (find_of_mem parsed.nodup inside)).2.2, nmiFrom_lastNmi]
    exact ⟨heard, named⟩

end Heard

theorem nmi_settings_right (world : ApicWorld) (mem : Memory) (madt addr : Nat)
    (es : List (List (BitVec 8))) (stored : MadtAt mem madt addr es) (ok : ∀ e ∈ es, EntryOk e) :
    (∃ info, apicParseMadt world mem madt ApicInfo.empty = some info ∧ NmiRight es info) ↔
      ∀ u, Occurs es u → NmiHeard es u ∧ AcpiNamed es u := by
  obtain ⟨info, run, parsed⟩ :=
    apicParseMadt_parsed (fun _ => True) world (fun _ => trivial) stored ok
  rw [run, ← parsed.nmiRight]
  simp

theorem nmi_settings_right_one :
    MadtAt (madtMemory [lapicOne, nmiOne]) 0 0xFEE00000 [lapicOne, nmiOne] ∧
      ∃ info, apicParseMadt dirtyWorld (madtMemory [lapicOne, nmiOne]) 0 ApicInfo.empty =
        some info ∧ NmiRight [lapicOne, nmiOne] info := by
  have stored : MadtAt (madtMemory [lapicOne, nmiOne]) 0 0xFEE00000 [lapicOne, nmiOne] :=
    ⟨by decide, by decide, by unfold BytesAt; decide⟩
  refine ⟨stored, (nmi_settings_right _ _ _ _ _ stored (by unfold EntryOk; decide)).mpr ?_⟩
  rintro u ⟨e, inside, occurs⟩
  have one : u = 1 := by
    rw [List.mem_cons, List.mem_singleton] at inside
    rcases inside with rfl | rfl
    · rcases occurs with lapic | ⟨_, nmi⟩
      · by_contra other
        rw [show (decode lapicOne).lapicOf u = none from if_neg (Ne.symm other)] at lapic
        cases lapic
      · cases nmi
    · rcases occurs with lapic | ⟨_, nmi⟩
      · cases lapic
      · by_contra other
        rw [show (decode nmiOne).nmiOf u = none from if_neg (Ne.symm other)] at nmi
        cases nmi
  subst one
  have own : NmiHeard [lapicOne, nmiOne] 1 :=
    show (∃ e ∈ _, _) → _ from fun _ => ⟨nmiOne, by decide, by decide⟩
  exact ⟨own, ⟨1, 5, 1⟩, by decide, rfl⟩

/-- An NMI entry of type 10 for all processors. -/
def nmiWide : List (BitVec 8) := [10, 12, 0, 0, 0xFF, 0xFF, 0xFF, 0xFF, 1, 0, 0, 0]

/-- The processor has no settings, and there is a record for none. -/
theorem wide_nmi_lost :
    acpiNmi 1 nmiWide = some ⟨1, 1, 0, 0⟩ ∧ EntryOk lapicOne ∧ EntryOk nmiWide ∧
      MadtAt (madtMemory [lapicOne, nmiWide]) 0 0xFEE00000 [lapicOne, nmiWide] ∧
      ∃ info, apicParseMadt dirtyWorld (madtMemory [lapicOne, nmiWide]) 0 ApicInfo.empty =
          some info ∧
        info.lapic.map (fun x => (x.procUid, x.settings)) =
          [(0xFFFFFFFF, some ⟨1, 1, 0, 0⟩), (1, none)] ∧
        ¬AcpiNamed [lapicOne, nmiWide] 0xFFFFFFFF ∧ ¬NmiRight [lapicOne, nmiWide] info := by
  have no : ¬AcpiNamed [lapicOne, nmiWide] 0xFFFFFFFF := by
    rintro ⟨l, inside, uid⟩
    cases List.mem_singleton.mp (show l ∈ [(⟨1, 5, 1⟩ : AcpiLapic)] from inside)
    exact absurd uid (by decide)
  obtain ⟨info, run, records⟩ : ∃ info,
      apicParseMadt dirtyWorld (madtMemory [lapicOne, nmiWide]) 0 ApicInfo.empty = some info ∧
      info.lapic.map (fun x => (x.procUid, x.settings)) =
        [(0xFFFFFFFF, some ⟨1, 1, 0, 0⟩), (1, none)] := ⟨_, rfl, by decide⟩
  refine ⟨by decide, by unfold EntryOk; decide, by unfold EntryOk; decide,
    ⟨by decide, by decide, by unfold BytesAt; decide⟩, info, run, records, no, fun right => ?_⟩
  obtain ⟨x, inside, same⟩ := List.mem_map.mp (records ▸ List.mem_cons_self)
  rw [Prod.mk.injEq] at same
  have named := (right x inside).2
  rw [same.1] at named
  exact no named

end Gapxos
