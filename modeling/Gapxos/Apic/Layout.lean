import Gapxos.Apic.Order

/-! The records against the layout of ACPI. In the entries of type 9 the parser takes the three
words in another order than they have. -/
namespace Gapxos
open Bytes Keyed

/- A local-APIC entry as ACPI lays it out. -/
structure AcpiLapic where
  uid : Nat
  id : Nat
  flags : Nat
  deriving DecidableEq

def acpiLapic (e : List (BitVec 8)) : Option AcpiLapic :=
  match read (entryBytes e) 0 1 with
  | 0 => some ⟨read (entryBytes e) 2 1, read (entryBytes e) 3 1, read (entryBytes e) 4 4⟩
  | 9 => some ⟨read (entryBytes e) 12 4, read (entryBytes e) 4 4, read (entryBytes e) 8 4⟩
  | _ => none

def LapicFields.Is (f : LapicFields) (l : AcpiLapic) : Prop :=
  f.lapicId = l.id ∧ f.enabled = l.flags % 2 ∧ f.onlineCapable = l.flags / 2 % 2

/-- There is a record with the fields of the entry. -/
def HasLapic (info : ApicInfo) (l : AcpiLapic) : Prop :=
  ∃ x ∈ info.lapic, x.procUid = l.uid ∧ x.fields.Is l

def otherWorld (id : Nat) : ApicWorld :=
  ⟨fun _ => ⟨0, if id = 0 then 1 else 0, .legacyApic, 0, 0, ⟨0, 0, 0, 0⟩⟩, fun _ => 0⟩

section Held

variable {blank : LapicFields → Prop} {addr : Nat} {es : List (List (BitVec 8))} {info : ApicInfo}
  {l : AcpiLapic} {f : LapicFields}

theorem Parsed.hasLapic (parsed : Parsed blank addr es info) (last : lastLapic es l.uid = some f)
    (is : f.Is l) : HasLapic info l := by
  cases found : info.record l.uid with
  | none =>
    have := ((parsed.missing l.uid).mp found).1
    rw [last] at this
    cases this
  | some x =>
    have fields := (parsed.found l.uid x found).1 f last
    exact ⟨x, List.mem_of_find?_eq_some found, find_key found, fields ▸ is⟩

theorem Parsed.lastLapic (parsed : Parsed blank addr es info) (held : HasLapic info l)
    (other : ∀ f, blank f → ¬f.Is l) : ∃ f, lastLapic es l.uid = some f ∧ f.Is l := by
  obtain ⟨x, inside, uid, is⟩ := held
  have found : info.record l.uid = some x := by
    rw [← uid]
    exact find_of_mem parsed.nodup inside
  obtain ⟨fields, given, _⟩ := parsed.found l.uid x found
  cases last : Gapxos.lastLapic es l.uid with
  | none => exact absurd is (other x.fields (given last))
  | some f => exact ⟨f, rfl, fields f last ▸ is⟩

end Held

theorem lapic_layout_held (mem : Memory) (madt addr : Nat) (es : List (List (BitVec 8)))
    (stored : MadtAt mem madt addr es) (ok : ∀ e ∈ es, EntryOk e) :
    (∀ world, ∃ info, apicParseMadt world mem madt ApicInfo.empty = some info ∧
      ∀ l ∈ es.filterMap acpiLapic, HasLapic info l) ↔
    ∀ l ∈ es.filterMap acpiLapic, ∃ f, lastLapic es l.uid = some f ∧ f.Is l := by
  constructor
  · intro all l inside
    obtain ⟨info, run, held⟩ := all (otherWorld l.id)
    obtain ⟨info', run', parsed⟩ := apicParseMadt_parsed
      (fun f => f.lapicId = if l.id = 0 then 1 else 0) (otherWorld l.id) (fun _ => rfl) stored ok
    rw [run] at run'
    cases run'
    apply parsed.lastLapic (held l inside)
    intro f given is
    have same := is.1
    rw [given] at same
    split at same <;> omega
  · intro last world
    obtain ⟨info, run, parsed⟩ :=
      apicParseMadt_parsed (fun _ => True) world (fun _ => trivial) stored ok
    refine ⟨info, run, fun l inside => ?_⟩
    obtain ⟨f, found, is⟩ := last l inside
    exact parsed.hasLapic found is

def lapicTwo : List (BitVec 8) := [0, 8, 2, 6, 1, 0, 0, 0]

theorem lapic_layout_held_legacy :
    [lapicOne, lapicTwo].filterMap acpiLapic = [⟨1, 5, 1⟩, ⟨2, 6, 1⟩] ∧
      ∀ world, ∃ info,
        apicParseMadt world (madtMemory [lapicOne, lapicTwo]) 0 ApicInfo.empty = some info ∧
        ∀ l ∈ [lapicOne, lapicTwo].filterMap acpiLapic, HasLapic info l := by
  have said : [lapicOne, lapicTwo].filterMap acpiLapic = [⟨1, 5, 1⟩, ⟨2, 6, 1⟩] := by decide
  refine ⟨said, (lapic_layout_held (madtMemory [lapicOne, lapicTwo]) 0 0xFEE00000
    [lapicOne, lapicTwo] ⟨by decide, by decide, by unfold BytesAt; decide⟩
    (by unfold EntryOk; decide)).mpr ?_⟩
  rw [said, List.forall_mem_cons, List.forall_mem_singleton]
  exact ⟨⟨⟨5, .legacyApic, 1, 0⟩, rfl, rfl, rfl, rfl⟩, ⟨⟨6, .legacyApic, 1, 0⟩, rfl, rfl, rfl, rfl⟩⟩

/-- An x2APIC of id 1, enabled, for processor 2. -/
def x2apicTwo : List (BitVec 8) := [9, 16, 0, 0, 1, 0, 0, 0, 1, 0, 0, 0, 2, 0, 0, 0]

theorem x2apic_layout_lost :
    acpiLapic x2apicTwo = some ⟨2, 1, 1⟩ ∧ EntryOk x2apicTwo ∧
      MadtAt (madtMemory [x2apicTwo]) 0 0xFEE00000 [x2apicTwo] ∧
      ∃ info, apicParseMadt dirtyWorld (madtMemory [x2apicTwo]) 0 ApicInfo.empty = some info ∧
        ¬HasLapic info ⟨2, 1, 1⟩ := by
  refine ⟨by decide, by unfold EntryOk; decide,
    ⟨by decide, by decide, by unfold BytesAt; decide⟩, _, rfl, ?_⟩
  rintro ⟨x, inside, uid, _⟩
  cases List.mem_singleton.mp inside
  exact absurd uid (by decide)

end Gapxos
