import Gapxos.Apic.Madt

/-! What apic_parse_madt leaves: for every UID the last entries that name it, whatever else
stands between them. -/
namespace Gapxos
open Bytes Keyed

/- The fields that a local-APIC entry sets. -/
structure LapicFields where
  lapicId : Nat
  mode : LapicMode
  enabled : Nat
  onlineCapable : Nat
  deriving DecidableEq

def Lapic.fields (x : Lapic) : LapicFields := ⟨x.lapicId, x.mode, x.enabled, x.onlineCapable⟩

/-- The NMI settings of a record, if it has any. -/
def Lapic.settings (x : Lapic) : Option NmiLint := if x.nmi.present = 1 then some x.nmi else none

def MadtEntry.lapicOf (u : Nat) : MadtEntry → Option LapicFields
  | .registerLapic procUid apicId flags mode =>
    if procUid = u then some ⟨apicId, mode, flags % 2, flags / 2 % 2⟩ else none
  | _ => none

def MadtEntry.nmiOf (u : Nat) : MadtEntry → Option NmiLint
  | .setLapicNmiLint procUid flags lintNo =>
    if procUid = u then some (nmiLint flags lintNo) else none
  | _ => none

def MadtEntry.addrOf : MadtEntry → Option Nat
  | .setLapicAddr addr => some addr
  | _ => none

/-- The NMI entries addressed to `u`; those of UID 0xFF are for all. -/
def addressed (es : List MadtEntry) (u : Nat) : Option NmiLint :=
  if u = 0xFF then none else lastOf (MadtEntry.nmiOf u) es

/-- The record of a UID against the last entries that name it. Without a local-APIC entry its
fields are as malloc gave them. -/
def RecordOf (blank : LapicFields → Prop) (fields : Option LapicFields) (nmi : Option NmiLint) :
    Option Lapic → Prop
  | none => fields = none ∧ nmi = none
  | some x => (fields.isSome ∨ nmi.isSome) ∧ (∀ f ∈ fields, x.fields = f) ∧
      (fields = none → blank x.fields) ∧ x.settings = nmi

structure Recorded (blank : LapicFields → Prop) (addr : Nat) (es : List MadtEntry)
    (info : ApicInfo) : Prop where
  nodup : (info.lapic.map Lapic.procUid).Nodup
  record : ∀ u, RecordOf blank (lastOf (MadtEntry.lapicOf u) es) (addressed es u)
    (find Lapic.procUid info.lapic u)
  global : info.globalNmiLint = (lastOf (MadtEntry.nmiOf 0xFF) es).getD ⟨0, 0, 0, 0⟩
  lapicAddr : info.lapicAddr = (lastOf MadtEntry.addrOf es).getD addr

section Step

variable {blank : LapicFields → Prop} {addr : Nat} {es : List MadtEntry} {info : ApicInfo}
  {fields : Option LapicFields} {lint : Option NmiLint} {x : Option Lapic}

theorem RecordOf.lapic (before : RecordOf blank fields lint x) (new : Lapic) (apicId flags : Nat)
    (mode : LapicMode) (absent : new.nmi.present = 0) :
    RecordOf blank (some ⟨apicId, mode, flags % 2, flags / 2 % 2⟩) lint
      (some ((x.map (setLapic apicId flags mode)).getD (setLapic apicId flags mode new))) := by
  refine ⟨.inl rfl, ?_, (fun no => nomatch no), ?_⟩
  · rintro f ⟨⟩
    cases x <;> rfl
  · cases x with
    | none =>
      rw [before.2]
      exact if_neg (by show new.nmi.present ≠ 1; omega)
    | some x => exact before.2.2.2

theorem RecordOf.nmi (before : RecordOf blank fields lint x) (new : Lapic)
    (given : blank new.fields) (flags lintNo : Nat) :
    RecordOf blank fields (some (nmiLint flags lintNo))
      (some ((x.map fun x => { x with nmi := nmiLint flags lintNo }).getD
        { new with nmi := nmiLint flags lintNo })) := by
  refine ⟨.inr rfl, ?_, ?_, ?_⟩
  · cases x with
    | none =>
      rw [before.1]
      rintro f ⟨⟩
    | some x => exact before.2.1
  · cases x with
    | none => exact fun _ => given
    | some x => exact before.2.2.1
  · cases x <;> rfl

theorem Recorded.other (before : Recorded blank addr es info) {e : MadtEntry} {after : ApicInfo}
    (lapic : ∀ u, e.lapicOf u = none) (nmi : ∀ u, e.nmiOf u = none)
    (same : after.lapic = info.lapic) (global : after.globalNmiLint = info.globalNmiLint)
    (addrAfter : after.lapicAddr = e.addrOf.getD info.lapicAddr) :
    Recorded blank addr (es ++ [e]) after := by
  constructor
  · rw [same]
    exact before.nodup
  · intro u
    rw [same, addressed, lastOf_snoc, lastOf_snoc, lapic, nmi]
    exact before.record u
  · rw [global, lastOf_snoc, nmi]
    exact before.global
  · rw [addrAfter, lastOf_snoc, before.lapicAddr]
    cases e.addrOf <;> rfl

theorem Recorded.registerLapic (before : Recorded blank addr es info) (world : ApicWorld)
    (procUid apicId flags : Nat) (mode : LapicMode) :
    Recorded blank addr (es ++ [.registerLapic procUid apicId flags mode])
      { info with lapic := Gapxos.registerLapic world procUid apicId flags mode info.lapic } := by
  have finds : ∀ u, find Lapic.procUid
      (Gapxos.registerLapic world procUid apicId flags mode info.lapic) u = _ :=
    find_upsert (fun _ => rfl) rfl
  constructor
  · exact nodup_upsert (fun _ => rfl) rfl before.nodup
  · intro u
    have own : (MadtEntry.registerLapic procUid apicId flags mode).lapicOf u =
      if procUid = u then some ⟨apicId, mode, flags % 2, flags / 2 % 2⟩ else none := rfl
    have no : (MadtEntry.registerLapic procUid apicId flags mode).nmiOf u = none := rfl
    rw [finds, addressed, lastOf_snoc, lastOf_snoc, own, no]
    by_cases here : u = procUid
    · subst here
      rw [if_pos rfl, if_pos rfl]
      exact (before.record u).lapic _ apicId flags mode rfl
    · rw [if_neg here, if_neg (Ne.symm here)]
      exact before.record u
  · rw [lastOf_snoc]
    exact before.global
  · rw [lastOf_snoc]
    exact before.lapicAddr

theorem Recorded.setLapicNmiLint (before : Recorded blank addr es info) {world : ApicWorld}
    (given : ∀ l, blank (world.fresh l).fields) (procUid flags lintNo : Nat) :
    Recorded blank addr (es ++ [.setLapicNmiLint procUid flags lintNo])
      (Gapxos.setLapicNmiLint world procUid flags lintNo info) := by
  have own : ∀ u, (MadtEntry.setLapicNmiLint procUid flags lintNo).nmiOf u =
    if procUid = u then some (nmiLint flags lintNo) else none := fun _ => rfl
  have no : ∀ u, (MadtEntry.setLapicNmiLint procUid flags lintNo).lapicOf u = none := fun _ => rfl
  unfold Gapxos.setLapicNmiLint
  by_cases all : procUid = 0xFF
  · subst all
    rw [if_pos rfl]
    constructor
    · exact before.nodup
    · intro u
      have record := before.record u
      rw [addressed] at record ⊢
      rw [lastOf_snoc, lastOf_snoc, no, own]
      by_cases here : u = 0xFF
      · rw [if_pos here] at record ⊢
        exact record
      · rw [if_neg here] at record ⊢
        rw [if_neg (Ne.symm here)]
        exact record
    · rw [lastOf_snoc]
      rfl
    · rw [lastOf_snoc]
      exact before.lapicAddr
  · rw [if_neg all]
    have finds : ∀ u, find Lapic.procUid (upsert Lapic.procUid procUid
        (fun x => { x with nmi := nmiLint flags lintNo })
        { world.fresh info.lapic with procUid := procUid, nmi := nmiLint flags lintNo }
        info.lapic) u = _ := find_upsert (fun _ => rfl) rfl
    constructor
    · exact nodup_upsert (fun _ => rfl) rfl before.nodup
    · intro u
      have record := before.record u
      rw [addressed] at record ⊢
      rw [finds, lastOf_snoc, lastOf_snoc, no, own]
      by_cases here : u = procUid
      · subst here
        rw [if_neg all] at record ⊢
        rw [if_pos rfl, if_pos rfl]
        exact record.nmi { world.fresh info.lapic with procUid := u } (given info.lapic) flags
          lintNo
      · rw [if_neg here, if_neg (Ne.symm here)]
        exact record
    · rw [lastOf_snoc, own, if_neg all]
      exact before.global
    · rw [lastOf_snoc]
      exact before.lapicAddr

theorem Recorded.handle (before : Recorded blank addr es info) {world : ApicWorld}
    (given : ∀ l, blank (world.fresh l).fields) (e : MadtEntry) :
    Recorded blank addr (es ++ [e]) (info.handle world e) := by
  cases e with
  | registerLapic procUid apicId flags mode => exact before.registerLapic world _ _ _ _
  | setLapicNmiLint procUid flags lintNo => exact before.setLapicNmiLint given _ _ _
  | registerIoapic | registerIso | registerNmiSource | setLapicAddr | skip =>
    exact before.other (fun _ => rfl) (fun _ => rfl) rfl rfl rfl

theorem Recorded.run (before : Recorded blank addr es info) {world : ApicWorld}
    (given : ∀ l, blank (world.fresh l).fields) (rest : List MadtEntry) :
    Recorded blank addr (es ++ rest) (rest.foldl (fun info e => info.handle world e) info) := by
  induction rest generalizing es info with
  | nil =>
    rw [List.append_nil]
    exact before
  | cons e rest ih =>
    have := ih (before.handle given e)
    rw [List.append_assoc] at this
    exact this

theorem Recorded.empty (blank : LapicFields → Prop) (addr : Nat) :
    Recorded blank addr [] { ApicInfo.empty with lapicAddr := addr } where
  nodup := List.nodup_nil
  record u := by
    rw [addressed]
    split <;> exact ⟨rfl, rfl⟩
  global := rfl
  lapicAddr := rfl

end Step

section Parsed

/-- The last local-APIC entry of a UID, and the NMI settings it ends with: those for all, or
else its own. -/
def lastLapic (es : List (List (BitVec 8))) (u : Nat) : Option LapicFields :=
  lastOf (MadtEntry.lapicOf u) (es.map decode)

def lastNmi (es : List (List (BitVec 8))) (u : Nat) : Option NmiLint :=
  (lastOf (MadtEntry.nmiOf 0xFF) (es.map decode)).or (addressed (es.map decode) u)

def ApicInfo.record (info : ApicInfo) (u : Nat) : Option Lapic :=
  find Lapic.procUid info.lapic u

variable {mem : Memory} {madt addr : Nat} {es : List (List (BitVec 8))}

theorem applyGlobalNmi_record (info : ApicInfo) (u : Nat) :
    (applyGlobalNmi info).record u = (info.record u).map fun x =>
      if info.globalNmiLint.present ≠ 0 then
        { x with nmi := { info.globalNmiLint with present := 1 } } else x := by
  unfold applyGlobalNmi ApicInfo.record
  by_cases present : info.globalNmiLint.present ≠ 0
  · simp only [if_pos present]
    apply find_map
    exact fun _ => rfl
  · simp only [if_neg present, Option.map_id']

theorem applyGlobalNmi_uids (info : ApicInfo) :
    (applyGlobalNmi info).lapic.map Lapic.procUid = info.lapic.map Lapic.procUid := by
  unfold applyGlobalNmi
  split
  · rw [List.map_map]
    rfl
  · rfl

theorem lastOf_nmi_present {es : List MadtEntry} {u : Nat} {m : NmiLint}
    (last : lastOf (MadtEntry.nmiOf u) es = some m) : m.present = 1 := by
  obtain ⟨e, _, said⟩ := lastOf_mem last
  cases e with
  | setLapicNmiLint procUid flags lintNo =>
    simp only [MadtEntry.nmiOf] at said
    split at said
    · cases said
      rfl
    · cases said
  | _ => cases said

structure Parsed (blank : LapicFields → Prop) (addr : Nat) (es : List (List (BitVec 8)))
    (info : ApicInfo) : Prop where
  nodup : (info.lapic.map Lapic.procUid).Nodup
  missing : ∀ u, info.record u = none ↔
    lastLapic es u = none ∧ addressed (es.map decode) u = none
  found : ∀ u x, info.record u = some x → (∀ f ∈ lastLapic es u, x.fields = f) ∧
    (lastLapic es u = none → blank x.fields) ∧ x.settings = lastNmi es u
  lapicAddr : info.lapicAddr = (lastOf MadtEntry.addrOf (es.map decode)).getD addr

theorem Recorded.parsed {blank : LapicFields → Prop} {info : ApicInfo}
    (run : Recorded blank addr (es.map decode) info) :
    Parsed blank addr es (applyGlobalNmi info) where
  nodup := by
    rw [applyGlobalNmi_uids]
    exact run.nodup
  missing u := by
    have record := run.record u
    rw [applyGlobalNmi_record, Option.map_eq_none_iff, ApicInfo.record, lastLapic]
    cases found : find Lapic.procUid info.lapic u with
    | none =>
      rw [found] at record
      exact iff_of_true rfl record
    | some x =>
      rw [found] at record
      refine iff_of_false (fun no => nomatch no) fun both => ?_
      have some_ := record.1
      rw [both.1, both.2] at some_
      simp at some_
  found u x out := by
    have record := run.record u
    rw [applyGlobalNmi_record, Option.map_eq_some_iff] at out
    obtain ⟨y, found, rfl⟩ := out
    rw [ApicInfo.record] at found
    rw [found] at record
    obtain ⟨_, fields, blank_, settings⟩ := record
    have global := run.global
    rw [lastNmi, lastLapic]
    cases all : lastOf (MadtEntry.nmiOf 0xFF) (es.map decode) with
    | none =>
      rw [all, Option.getD_none] at global
      rw [global, if_neg (by decide)]
      exact ⟨fields, blank_, settings⟩
    | some m =>
      rw [all, Option.getD_some] at global
      have present := lastOf_nmi_present all
      rw [global, if_pos (by omega), ← present]
      exact ⟨fields, blank_, if_pos present⟩
  lapicAddr := by
    unfold applyGlobalNmi
    split <;> exact run.lapicAddr

theorem apicParseMadt_parsed (blank : LapicFields → Prop) (world : ApicWorld)
    (given : ∀ l, blank (world.fresh l).fields) (stored : MadtAt mem madt addr es)
    (ok : ∀ e ∈ es, EntryOk e) : ∃ info,
      apicParseMadt world mem madt ApicInfo.empty = some info ∧ Parsed blank addr es info :=
  ⟨_, apicParseMadt_entries world stored ok _, ((Recorded.empty blank addr).run given _).parsed⟩

end Parsed

end Gapxos
