import Gapxos.Loader.Image
import Gapxos.Loader.Trace
import Mathlib.Order.Fin.Basic

/-! When load_elf64_module leaves the headers alone that it is reading. add_page writes to the
area of the tables, and for a page of the first 8 MiB to the large page that it takes for a
table. -/
namespace Gapxos
open Bytes Radix Runs

def largePath : List (Fin 512) → Bool
  | [i, j, k] => i.val == 0 && j.val == 0 && decide (k.val < 4)
  | _ => false

def largeFrame : List (Fin 512) → Nat
  | [_, _, k] => 512 * k.val
  | _ => 0

/-- One level of add_page, seen from the paths of the tables: one that is missing is added. -/
def openTable (tables : List (List (Fin 512))) (q : List (Fin 512)) : List (List (Fin 512)) :=
  if q ∈ tables ∨ largePath q = true then tables else tables ++ [q]

def openPage (tables : List (List (Fin 512))) (v : Nat) : List (List (Fin 512)) :=
  openTable (openTable (openTable tables ((path v).take 1)) ((path v).take 2)) ((path v).take 3)

inductive Slot (r : Nat) (tables : List (List (Fin 512))) (q : List (Fin 512)) (e : Word) : Prop
  | absent : present e = false → q ∉ tables → largePath q = false → Slot r tables q e
  | table (j : Nat) : present e = true → tables[j]? = some q → hwFrame e % 2 ^ 20 = r + j →
      Slot r tables q e
  | large : present e = true → largePath q = true → hwFrame e % 2 ^ 20 = largeFrame q →
      Slot r tables q e

/-- The area of the tables from frame `r` on: the table in its frame `j` is on the path
`tables[j]`. -/
structure Area (r : Nat) (tables : List (List (Fin 512))) (s : Loader) : Prop where
  root : s.pml4t = 4096 * r
  point : s.pageFreePoint = 4096 * (r + tables.length)
  first : tables[0]? = some []
  identity : [0, 0] ∈ tables
  nodup : tables.Nodup
  closed : ∀ q i, q ++ [i] ∈ tables → q ∈ tables
  blank : ∀ f, r + tables.length ≤ f → f < r + 256 → frames s.mem f = fun _ => 0
  slot : ∀ j q, tables[j]? = some q → q.length < 3 → ∀ i,
    Slot r tables (q ++ [i]) (frames s.mem (r + j) i)

section Level

variable {r j : Nat} {tables : List (List (Fin 512))} {s : Loader} {q : List (Fin 512)}
  {i : Fin 512}

theorem le_openTable (tables : List (List (Fin 512))) (q : List (Fin 512)) :
    tables.length ≤ (openTable tables q).length := by
  unfold openTable
  split
  · exact Nat.le_refl _
  · simp

theorem le_openPage (tables : List (List (Fin 512))) (v : Nat) :
    tables.length ≤ (openPage tables v).length :=
  Nat.le_trans (le_openTable _ _) (Nat.le_trans (le_openTable _ _) (le_openTable _ _))

theorem le_openPages (pages : List Nat) (tables : List (List (Fin 512))) :
    tables.length ≤ (pages.foldl openPage tables).length := by
  induction pages generalizing tables with
  | nil => exact Nat.le_refl _
  | cons v pages ih => exact Nat.le_trans (le_openPage tables v) (ih _)

theorem largePath_cut (large : largePath (q ++ [i]) = true) : q = [0, 0] := by
  rcases q with _ | ⟨a, _ | ⟨b, _ | ⟨c, q⟩⟩⟩
  · cases large
  · cases large
  · simp only [List.cons_append, List.nil_append, largePath, Bool.and_eq_true, beq_iff_eq,
      decide_eq_true_eq] at large
    rw [show a = 0 from Fin.ext large.1.1, show b = 0 from Fin.ext large.1.2]
  · cases q <;> cases large

theorem getElem?_lt {α : Type} {l : List α} {a : α} (here : l[j]? = some a) : j < l.length :=
  (List.getElem?_eq_some_iff.mp here).1

theorem Area.congr (inv : Area r tables s) (space : tables.length ≤ 256) {mem : Memory}
    (same : ∀ x, 4096 * r ≤ x → x < 4096 * (r + 256) → mem x = s.mem x) :
    Area r tables { s with mem } := by
  have frame : ∀ f, r ≤ f → f < r + 256 → frames mem f = frames s.mem f := fun f low high =>
    frames_congr fun x below above => same x (by omega) (by omega)
  refine ⟨inv.root, inv.point, inv.first, inv.identity, inv.nodup, inv.closed, ?_, ?_⟩
  · intro f low high
    exact (frame f (by omega) high).trans (inv.blank f low high)
  · intro j q here short i
    have less := getElem?_lt here
    show Slot r tables (q ++ [i]) (frames mem (r + j) i)
    rw [frame (r + j) (by omega) (by omega)]
    exact inv.slot j q here short i

theorem Area.leaf (inv : Area r tables s) (here : tables[j]? = some q) (long : q.length = 3)
    (i : Fin 512) (w : Word) :
    Area r tables { s with mem := setWord s.mem (4096 * (r + j) + 8 * i) w } := by
  have less := getElem?_lt here
  refine ⟨inv.root, inv.point, inv.first, inv.identity, inv.nodup, inv.closed, ?_, ?_⟩
  · intro f low high
    rw [frames_setWord, store_other_frame (by omega)]
    exact inv.blank f low high
  · intro j' q' here' short i'
    have other : j' ≠ j := by
      rintro rfl
      rw [Option.some.inj (here'.symm.trans here)] at short
      omega
    rw [frames_setWord, store_other_frame (by omega)]
    exact inv.slot j' q' here' short i'

theorem Slot.grow {new : List (Fin 512)} {e : Word} (slot : Slot r tables q e) (other : q ≠ new) :
    Slot r (tables ++ [new]) q e := by
  cases slot with
  | absent none away small => exact .absent none (by simp [away, other]) small
  | table k there at_k frame =>
    exact .table k there (by rw [List.getElem?_append_left (getElem?_lt at_k), at_k]) frame
  | large there large frame => exact .large there large frame

/- A table that was just made has no entries, and none of its paths is open. -/
theorem Area.fresh_slot (inv : Area r tables s) (missing : q ++ [i] ∉ tables) (i' : Fin 512) :
    Slot r (tables ++ [q ++ [i]]) (q ++ [i] ++ [i']) 0 := by
  refine .absent (by decide) (fun inside => ?_) ?_
  · rcases List.mem_append.mp inside with inside | last
    · exact missing (inv.closed _ i' inside)
    · have := congrArg List.length (List.mem_singleton.mp last)
      simp at this
  · cases large : largePath (q ++ [i] ++ [i']) with
    | false => rfl
    | true => exact absurd (largePath_cut large ▸ inv.identity) missing

theorem Area.link (inv : Area r tables s) (bound : r + 256 ≤ 2 ^ 20)
    (here : tables[j]? = some q) (missing : q ++ [i] ∉ tables) (free : tables.length < 256) :
    Area r (tables ++ [q ++ [i]]) (s.link (r + j) i (r + tables.length)) := by
  have less := getElem?_lt here
  have first := getElem?_lt inv.first
  have old : ∀ (j' : Nat) q', tables[j']? = some q' → (tables ++ [q ++ [i]])[j']? = some q' := by
    intro j' q' here'
    rw [List.getElem?_append_left (getElem?_lt here'), here']
  refine ⟨inv.root, ?_, old _ _ inv.first, List.mem_append_left _ inv.identity, ?_, ?_, ?_, ?_⟩
  · show 4096 * (r + tables.length + 1) = _
    rw [List.length_append, List.length_singleton, Nat.add_assoc]
  · rw [List.nodup_append]
    refine ⟨inv.nodup, List.nodup_singleton _, fun a inside b last => ?_⟩
    rintro rfl
    exact missing (List.mem_singleton.mp last ▸ inside)
  · intro q' i' inside
    rcases List.mem_append.mp inside with inside | last
    · exact List.mem_append_left _ (inv.closed q' i' inside)
    · obtain ⟨rfl, _⟩ := List.append_inj' (List.mem_singleton.mp last) rfl
      exact List.mem_append_left _ (List.mem_of_getElem? here)
  · intro f low high
    rw [List.length_append, List.length_singleton] at low
    rw [link_frames, store_other_frame (by omega)]
    exact inv.blank f (by omega) high
  · intro j' q' here' short i'
    rw [link_frames]
    by_cases new : j' < tables.length
    · have mine : tables[j']? = some q' := by
        rw [List.getElem?_append_left new] at here'
        exact here'
      by_cases hit : r + j' = r + j ∧ i' = i
      · -- the slot that is written
        obtain ⟨rfl, rfl⟩ : j' = j ∧ i' = i := ⟨by omega, hit.2⟩
        obtain rfl : q' = q := Option.some.inj (mine.symm.trans here)
        obtain ⟨there, _, frame⟩ :=
          child_eq_some.mp (loaderEntry_child (show r + tables.length < 2 ^ 20 by omega))
        rw [store_same]
        exact .table tables.length there (by simp) (by rw [frame, Nat.mod_eq_of_lt (by omega)])
      · rw [store_other hit]
        refine (inv.slot j' q' mine short i').grow fun equal => hit ?_
        obtain ⟨rfl, index⟩ := List.append_inj' equal rfl
        have same : j' = j := (List.getElem?_inj new inv.nodup).mp (mine.trans here.symm)
        exact ⟨by rw [same], by simpa using index⟩
    · have last : j' = tables.length := by
        have := getElem?_lt here'
        rw [List.length_append, List.length_singleton] at this
        omega
      subst last
      obtain rfl : q' = q ++ [i] := by simpa using here'.symm
      rw [store_other_frame (by omega), inv.blank _ (Nat.le_refl _) (by omega)]
      exact inv.fresh_slot missing i'

/-- Where a level of add_page ends up: in a table of the area or in a large page. -/
def Arrives (r : Nat) (tables : List (List (Fin 512))) (q : List (Fin 512)) (f : Nat) : Prop :=
  (∃ j, tables[j]? = some q ∧ f = r + j) ∨ largePath q = true ∧ f = largeFrame q

theorem Loader.nextTable_present {f : Nat} (there : present (frames s.mem f i) = true) :
    s.nextTable (4096 * f + 8 * i) = (s, 4096 * (hwFrame (frames s.mem f i) % 2 ^ 20)) := by
  have here : word s.mem (4096 * f + 8 * i) = frames s.mem f i := rfl
  simp only [Loader.nextTable, here, there, if_true, pointer_eq]

theorem Area.nextTable (inv : Area r tables s) (bound : r + 256 ≤ 2 ^ 20)
    (here : tables[j]? = some q) (short : q.length < 3) (i : Fin 512)
    (room : (openTable tables (q ++ [i])).length ≤ 256) :
    ∃ s' f, s.nextTable (4096 * (r + j) + 8 * i) = (s', 4096 * f) ∧
      Area r (openTable tables (q ++ [i])) s' ∧
      Arrives r (openTable tables (q ++ [i])) (q ++ [i]) f ∧
      ∀ x, x < 4096 * r ∨ 4096 * (r + 256) ≤ x → s'.mem x = s.mem x := by
  have less := getElem?_lt here
  cases inv.slot j q here short i with
  | absent none away small =>
    have opened : openTable tables (q ++ [i]) = tables ++ [q ++ [i]] := by
      simp [openTable, away, small]
    rw [opened, List.length_append, List.length_singleton] at room
    rw [opened]
    refine ⟨_, _, Loader.nextTable_new none inv.point (by omega),
      inv.link bound here away (by omega), .inl ⟨tables.length, by simp, rfl⟩, fun x out => ?_⟩
    have := i.isLt
    exact setWord_apply (by omega)
  | table k there at_k frame =>
    have opened : openTable tables (q ++ [i]) = tables := by
      simp [openTable, List.mem_of_getElem? at_k]
    rw [opened]
    refine ⟨s, r + k, ?_, inv, .inl ⟨k, at_k, rfl⟩, fun _ _ => rfl⟩
    rw [Loader.nextTable_present there, frame]
  | large there large frame =>
    have opened : openTable tables (q ++ [i]) = tables := by simp [openTable, large]
    rw [opened]
    refine ⟨s, _, ?_, inv, .inr ⟨large, rfl⟩, fun _ _ => rfl⟩
    rw [Loader.nextTable_present there, frame]

end Level

/-- The entry that add_page writes for a page of the first 8 MiB. -/
def largeSlot (v : Nat) : Nat := v % 2 ^ 48 / 2 ^ 21 * 2 ^ 21 + 8 * (v / 2 ^ 12 % 512)

theorem largePath_iff (v : Nat) : largePath ((path v).take 3) = true ↔ v % 2 ^ 48 < 2 ^ 23 := by
  simp only [path, List.take_succ_cons, List.take_zero, largePath, Fin.ofNat, Bool.and_eq_true,
    beq_iff_eq, decide_eq_true_eq]
  omega

theorem largeSlot_eq {v : Nat} (low : v % 2 ^ 48 < 2 ^ 23) :
    4096 * largeFrame ((path v).take 3) + 8 * (Fin.ofNat 512 (v / 2 ^ 12)).val = largeSlot v := by
  simp only [path, List.take_succ_cons, List.take_zero, largeFrame, Fin.ofNat, largeSlot]
  omega

section Add

variable {r : Nat} {tables : List (List (Fin 512))} {s : Loader}

theorem Area.add (inv : Area r tables s) (bound : r + 256 ≤ 2 ^ 20) (a : Add)
    (room : (openPage tables a.virt).length ≤ 256)
    (off : a.virt % 2 ^ 48 < 2 ^ 23 →
      Clear (largeSlot a.virt) (largeSlot a.virt + 8) (4096 * r) (4096 * (r + 256))) :
    Area r (openPage tables a.virt) (s.add a) ∧
      ∀ x, x < 4096 * r ∨ 4096 * (r + 256) ≤ x →
        (a.virt % 2 ^ 48 < 2 ^ 23 → x < largeSlot a.virt ∨ largeSlot a.virt + 8 ≤ x) →
        (s.add a).mem x = s.mem x := by
  obtain ⟨i₁, i₂, i₃, front⟩ : ∃ i₁ i₂ i₃, (path a.virt).take 3 = [i₁, i₂, i₃] :=
    ⟨_, _, _, rfl⟩
  have one : (path a.virt).take 1 = [] ++ [i₁] := by
    have := congrArg (List.take 1) front
    rwa [List.take_take] at this
  have two : (path a.virt).take 2 = [] ++ [i₁] ++ [i₂] := by
    have := congrArg (List.take 2) front
    rwa [List.take_take] at this
  have three : (path a.virt).take 3 = [] ++ [i₁] ++ [i₂] ++ [i₃] := front
  simp only [openPage, one, two, three] at room ⊢
  have room₂ := Nat.le_trans (le_openTable _ _) room
  have room₁ := Nat.le_trans (le_openTable _ _) room₂
  obtain ⟨s₁, f₁, run₁, inv₁, found₁, frame₁⟩ := inv.nextTable bound inv.first (by decide) i₁ room₁
  rcases found₁ with ⟨j₁, here₁, rfl⟩ | ⟨large, _⟩
  swap
  · cases large
  obtain ⟨s₂, f₂, run₂, inv₂, found₂, frame₂⟩ := inv₁.nextTable bound here₁ (by simp) i₂ room₂
  rcases found₂ with ⟨j₂, here₂, rfl⟩ | ⟨large, _⟩
  swap
  · cases large
  obtain ⟨s₃, f₃, run₃, inv₃, found₃, frame₃⟩ := inv₂.nextTable bound here₂ (by simp) i₃ room
  have same : ∀ x, x < 4096 * r ∨ 4096 * (r + 256) ≤ x → s₃.mem x = s.mem x := fun x out => by
    rw [frame₃ x out, frame₂ x out, frame₁ x out]
  have opened : s.openPath s.pml4t ((path a.virt).take 3) = (s₃, 4096 * f₃) := by
    rw [front, inv.root]
    rw [Nat.add_zero] at run₁
    simp only [Loader.openPath, run₁, run₂, run₃]
  have run := addPage_eq s a.virt a.phys a.exec
  rw [opened] at run
  rw [Loader.add, run]
  have index := (Fin.ofNat 512 (a.virt / 2 ^ 12)).isLt
  rcases found₃ with ⟨j₃, here₃, rfl⟩ | ⟨large, frame⟩
  · have less := getElem?_lt here₃
    refine ⟨inv₃.leaf here₃ (by simp) _ _, fun x out _ => ?_⟩
    rw [← same x out]
    exact setWord_apply (by omega)
  · have low : a.virt % 2 ^ 48 < 2 ^ 23 := (largePath_iff _).mp (three ▸ large)
    have slot := largeSlot_eq low
    rw [three, ← frame] at slot
    have away := off low
    refine ⟨inv₃.congr room fun x above below => ?_, fun x out far => ?_⟩
    · refine setWord_apply ?_
      rcases away with away | away <;> omega
    · rw [← same x out]
      exact setWord_apply (by rw [slot]; exact far low)

theorem init_area (mem : Memory) (r : Nat) (bound : r + 256 ≤ 2 ^ 20) :
    Area r [[], [0], [0, 0]] (initPageStructure mem (4096 * r)) := by
  obtain ⟨row, row', row'', rest, _⟩ := init_frames mem r
  have entry : ∀ j, j < 256 → ∀ {q : List (Fin 512)}, [[], [0], [0, 0]][j]? = some q →
      Slot r [[], [0], [0, 0]] q (loaderEntry (4096 * (r + j))) := by
    intro j less q here
    obtain ⟨there, _, frame⟩ := child_eq_some.mp (loaderEntry_child (show r + j < 2 ^ 20 by omega))
    exact .table j there here (by rw [frame, Nat.mod_eq_of_lt (by omega)])
  refine ⟨rfl, ?_, rfl, by simp, by decide, ?_, ?_, ?_⟩
  · show 4096 * r + 0x3000 = 4096 * (r + 3)
    omega
  · intro q i inside
    simp only [List.mem_cons, List.not_mem_nil, or_false] at inside ⊢
    rcases inside with none | one | two
    · simp at none
    · exact .inl (List.append_inj' (show q ++ [i] = [] ++ [0] from one) rfl).1
    · exact .inr (.inl (List.append_inj' (show q ++ [i] = [0] ++ [0] from two) rfl).1)
  · exact fun f low high => rest f low high
  · intro j q here short i
    have less := getElem?_lt here
    simp only [List.length_cons, List.length_nil] at less
    have cases : j = 0 ∨ j = 1 ∨ j = 2 := by omega
    rcases cases with rfl | rfl | rfl
    · obtain rfl : [] = q := Option.some.inj here
      rw [Nat.add_zero, row]
      split
      · rename_i zero
        subst zero
        exact entry 1 (by decide) rfl
      · rename_i other
        exact .absent (by decide) (by simpa using other) rfl
    · obtain rfl : [0] = q := Option.some.inj here
      rw [row']
      split
      · rename_i zero
        subst zero
        exact entry 2 (by decide) rfl
      · rename_i other
        exact .absent (by decide) (by simpa using other) rfl
    · obtain rfl : [0, 0] = q := Option.some.inj here
      rw [row'', identityWord]
      split
      · rename_i low
        have cases : i.val = 0 ∨ i.val = 1 ∨ i.val = 2 ∨ i.val = 3 := by omega
        refine .large ?_ (by simpa [largePath] using low) ?_
        · rcases cases with eq | eq | eq | eq <;> rw [eq] <;> decide
        · show _ = 512 * i.val
          rcases cases with eq | eq | eq | eq <;> rw [eq] <;> decide
      · rename_i high
        exact .absent (by decide) (by simp) (by simpa [largePath] using high)

end Add

/-- The addresses that add_page is called with for a segment, from page `t` on. -/
def Phdr.pagesFrom (p : Phdr) : Nat → Nat → List Nat
  | 0, _ => []
  | n + 1, t =>
    if 4096 * t < p.memsz then (p.vaddr + 4096 * t) % 2 ^ 64 :: p.pagesFrom n (t + 1) else []

def Phdr.pages (p : Phdr) : List Nat := p.pagesFrom (2 ^ 19) 0

/-- The slot for a page of the first 8 MiB is neither in the module nor in a table. -/
def SlotOff (r ms me v : Nat) : Prop :=
  v % 2 ^ 48 < 2 ^ 23 → Clear (largeSlot v) (largeSlot v + 8) ms me ∧
    Clear (largeSlot v) (largeSlot v + 8) (4096 * r) (4096 * (r + 256))

/-- What is read of the headers lies in the module. -/
structure HeadersIn (m : Memory) (ms me : Nat) : Prop where
  fits : me ≤ 2 ^ 32
  header : ms + 58 ≤ me
  phdr : ∀ h ∈ headerTable m ms, ms ≤ h.1 ∧ h.1 + (if h.2.load then 48 else 4) ≤ me

section Load

variable {r ms me : Nat} {m : Memory} {tables : List (List (Fin 512))} {s : Loader}

theorem Kept.phdrAt {mem : Memory} {a : Nat} (kept : Kept m mem ms me)
    (inside : ms ≤ a ∧ a + 48 ≤ me) : phdrAt mem a = phdrAt m a :=
  phdrAt_congr fun x above below => kept x (by omega) (by omega)

theorem Area.map (bound : r + 256 ≤ 2 ^ 20)
    (modOff : Clear ms me (4096 * r) (4096 * (r + 256))) {a : Nat} (base : Nat) {p : Phdr}
    (inside : ms ≤ a ∧ a + 48 ≤ me) (header : phdrAt m a = p) {n t : Nat}
    (inv : Area r tables s) (kept : Kept m s.mem ms me)
    (room : ((p.pagesFrom n t).foldl openPage tables).length ≤ 256)
    (off : ∀ v ∈ p.pagesFrom n t, SlotOff r ms me v) :
    Throughout LoadEvent.run (fun s => Kept m s.mem ms me) s (mapTrace a base n t s) ∧
      Area r ((p.pagesFrom n t).foldl openPage tables) (mapSegment a base n t s) ∧
      Kept m (mapSegment a base n t s).mem ms me := by
  induction n generalizing t s tables with
  | zero => exact ⟨⟨kept, trivial⟩, inv, kept⟩
  | succ n ih =>
    have here : phdrAt s.mem a = p := (kept.phdrAt inside).trans header
    rw [mapTrace, mapSegment, here]
    by_cases more : 4096 * t < p.memsz
    · have pages : p.pagesFrom (n + 1) t =
          (p.vaddr + 4096 * t) % 2 ^ 64 :: p.pagesFrom n (t + 1) := by
        rw [Phdr.pagesFrom, if_pos more]
      rw [pages] at room off ⊢
      obtain ⟨now, later⟩ := List.forall_mem_cons.mp off
      obtain ⟨inv', frame⟩ := inv.add bound (p.call base t)
        (Nat.le_trans (le_openPages _ _) room) fun low => (now low).2
      have kept' : Kept m (s.add (p.call base t)).mem ms me := by
        intro x above below
        rw [frame x (by rcases modOff with away | away <;> omega), kept x above below]
        intro low
        rcases (now low).1 with away | away
        · exact .inr (Nat.le_trans away above)
        · exact .inl (Nat.lt_of_lt_of_le below away)
      rw [if_pos more, if_pos more]
      obtain ⟨all, inv'', kept''⟩ := ih inv' kept' room later
      exact ⟨⟨kept, kept, kept, kept, all⟩, inv'', kept''⟩
    · have pages : p.pagesFrom (n + 1) t = [] := by rw [Phdr.pagesFrom, if_neg more]
      rw [if_neg more, if_neg more, pages]
      exact ⟨⟨kept, trivial⟩, inv, kept⟩

theorem memcpy_off {mem : Memory} {dst src n x : Nat} (off : x < dst ∨ dst + n ≤ x) :
    memcpy mem dst src n x = mem x := by
  induction n generalizing mem dst src with
  | zero => rfl
  | succ n ih => rw [memcpy, ih (by omega), write_other (by omega)]

theorem Area.segment (bound : r + 256 ≤ 2 ^ 20)
    (modOff : Clear ms me (4096 * r) (4096 * (r + 256))) {a base : Nat} {p : Phdr}
    (inside : ms ≤ a ∧ a + 48 ≤ me) (header : phdrAt m a = p) (size : p.filesz ≤ p.memsz)
    (off : Clear base (base + p.memsz) ms me)
    (off' : Clear base (base + p.memsz) (4096 * r) (4096 * (r + 256)))
    (inv : Area r tables s) (kept : Kept m s.mem ms me)
    (room : (p.pages.foldl openPage tables).length ≤ 256)
    (slots : ∀ v ∈ p.pages, SlotOff r ms me v) :
    Throughout LoadEvent.run (fun s => Kept m s.mem ms me) s (segmentTrace ms a base s) ∧
      Area r (p.pages.foldl openPage tables) (loadSegment ms a base s) ∧
      Kept m (loadSegment ms a base s).mem ms me := by
  have space := Nat.le_trans (le_openPages p.pages tables) room
  have cleared : p.memsz % 2 ^ 32 ≤ p.memsz := Nat.mod_le _ _
  have copied : p.filesz % 2 ^ 32 ≤ p.memsz := Nat.le_trans (Nat.mod_le _ _) size
  have here : phdrAt s.mem a = p := (kept.phdrAt inside).trans header
  -- the memory after the segment was cleared, and after it was copied
  obtain ⟨mem₁, eq₁⟩ : ∃ mem₁, mem₁ = zeroMemory s.mem base (p.memsz % 2 ^ 32) := ⟨_, rfl⟩
  obtain ⟨mem₂, eq₂⟩ : ∃ mem₂, mem₂ =
    memcpy mem₁ base ((ms + p.offset) % 2 ^ 32) (p.filesz % 2 ^ 32) := ⟨_, rfl⟩
  have same₁ : ∀ x, x < base ∨ base + p.memsz ≤ x → mem₁ x = s.mem x := fun x out => by
    rw [eq₁, zeroMemory_apply, if_neg (by omega)]
  have same₂ : ∀ x, x < base ∨ base + p.memsz ≤ x → mem₂ x = s.mem x := fun x out => by
    rw [eq₂, memcpy_off (by omega), same₁ x out]
  have kept₁ : Kept m mem₁ ms me := fun x above below => by
    rw [same₁ x (by rcases off with away | away <;> omega), kept x above below]
  have kept₂ : Kept m mem₂ ms me := fun x above below => by
    rw [same₂ x (by rcases off with away | away <;> omega), kept x above below]
  have header₁ : phdrAt mem₁ a = p := (kept₁.phdrAt inside).trans header
  have inv₂ : Area r tables { s with mem := mem₂ } := inv.congr space fun x above below =>
    same₂ x (by rcases off' with away | away <;> omega)
  obtain ⟨all, inv', kept'⟩ := inv₂.map bound modOff base inside header kept₂ room slots
  have trace : segmentTrace ms a base s = [.read (a + 8) 8, .read (a + 40) 8,
      .zero base (p.memsz % 2 ^ 32), .read (a + 32) 8,
      .copy base ((ms + p.offset) % 2 ^ 32) (p.filesz % 2 ^ 32)] ++
        mapTrace a base (2 ^ 19) 0 { s with mem := mem₂ } := by
    simp only [segmentTrace, LoadEvent.run, here, ← eq₁, header₁, ← eq₂]
  have run : loadSegment ms a base s = mapSegment a base (2 ^ 19) 0 { s with mem := mem₂ } := by
    simp only [loadSegment, here, ← eq₁, header₁, ← eq₂]
  rw [trace, run, throughout_append]
  refine ⟨⟨⟨kept, kept, kept, ?_, ?_, trivial⟩, ?_⟩, inv', kept'⟩
  · show Kept m (zeroMemory s.mem base (p.memsz % 2 ^ 32)) ms me
    rw [← eq₁]
    exact kept₁
  · show Kept m (zeroMemory s.mem base (p.memsz % 2 ^ 32)) ms me
    rw [← eq₁]
    exact kept₁
  · simp only [List.foldl_cons, List.foldl_nil, LoadEvent.run, ← eq₁, ← eq₂]
    exact all

theorem mem_headerTable {i : Nat} (less : i < ePhnum m ms) :
    (headerAddr m ms i, Gapxos.phdrAt m (headerAddr m ms i)) ∈ headerTable m ms :=
  List.mem_map.mpr ⟨i, by simpa using less, rfl⟩

theorem Kept.headersStill (headers : HeadersIn m ms me) (kept : Kept m s.mem ms me) :
    HeadersStill m ms s := by
  have header := headers.header
  refine ⟨?_, ?_, fun i less => ?_⟩
  · exact read_congr fun x above below => kept x (by omega) (by omega)
  · exact read_congr fun x above below => kept x (by omega) (by omega)
  · obtain ⟨low, high⟩ := headers.phdr _ (mem_headerTable less)
    cases load : (Gapxos.phdrAt m (headerAddr m ms i)).load with
    | false =>
      simp only [load, Bool.false_eq_true, if_false] at low high
      have type : read s.mem (headerAddr m ms i) 4 = read m (headerAddr m ms i) 4 :=
        read_congr fun x above below => kept x (by omega) (by omega)
      refine ⟨?_, fun no => absurd (load.symm.trans no) (by decide)⟩
      simp only [Phdr.load, Gapxos.phdrAt, type]
    | true =>
      simp only [load, if_true] at low high
      rw [kept.phdrAt ⟨low, high⟩]
      exact ⟨rfl, fun _ => rfl⟩

theorem Area.pass (bound : r + 256 ≤ 2 ^ 20)
    (modOff : Clear ms me (4096 * r) (4096 * (r + 256))) (headers : HeadersIn m ms me)
    {n i d base stop : Nat} (count : i + d = ePhnum m ms) (enough : d < n)
    (size : ∀ p ∈ loaded (tableFrom m ms i d), p.filesz ≤ p.memsz)
    (space : base + total (loaded (tableFrom m ms i d)) ≤ stop) (low : stop ≤ 2 ^ 32)
    (off : Clear base stop ms me) (off' : Clear base stop (4096 * r) (4096 * (r + 256)))
    (inv : Area r tables s) (kept : Kept m s.mem ms me)
    (room : (((loaded (tableFrom m ms i d)).flatMap Phdr.pages).foldl openPage tables).length ≤ 256)
    (slots : ∀ v ∈ (loaded (tableFrom m ms i d)).flatMap Phdr.pages, SlotOff r ms me v) :
    Throughout LoadEvent.run (fun s => Kept m s.mem ms me) s
        (passTrace ms n i (headerAddr m ms i) base s) ∧
      Kept m (loadSegments ms n i (headerAddr m ms i) base s).mem ms me := by
  induction d generalizing n i base stop s tables with
  | zero =>
    obtain ⟨n, rfl⟩ := Nat.exists_eq_succ_of_ne_zero (Nat.ne_of_gt enough)
    rw [passTrace, loadSegments, (kept.headersStill headers).phnum, if_neg (by omega),
      if_neg (by omega)]
    exact ⟨⟨kept, trivial⟩, kept⟩
  | succ d ih =>
    obtain ⟨n, rfl⟩ := Nat.exists_eq_succ_of_ne_zero (Nat.ne_of_gt (Nat.zero_lt_of_lt enough))
    have less : i < ePhnum m ms := by omega
    have now := kept.headersStill headers
    have inside := headers.phdr _ (mem_headerTable less)
    have same := now.phdr i less
    obtain ⟨p, eq⟩ : ∃ p, p = phdrAt m (headerAddr m ms i) := ⟨_, rfl⟩
    rw [tableFrom_succ, ← eq] at size space room slots
    rw [← eq] at inside same
    rw [passTrace, loadSegments, now.phnum, if_pos less, if_pos less, same.1]
    cases type : p.load with
    | false =>
      have rest : loaded ((headerAddr m ms i, p) :: tableFrom m ms (i + 1) d) =
          loaded (tableFrom m ms (i + 1) d) := by simp [loaded, type]
      rw [rest] at size space room slots
      simp only [Bool.false_eq_true, if_false, now.phentsize, headerAddr_succ]
      obtain ⟨all, kept'⟩ := ih (n := n) (i := i + 1) (by omega) (by omega) size space low off off'
        inv kept room slots
      exact ⟨⟨kept, kept, kept, all⟩, kept'⟩
    | true =>
      have rest : loaded ((headerAddr m ms i, p) :: tableFrom m ms (i + 1) d) =
          p :: loaded (tableFrom m ms (i + 1) d) := by simp [loaded, type]
      have sum : total (p :: loaded (tableFrom m ms (i + 1) d)) =
          p.memsz + total (loaded (tableFrom m ms (i + 1) d)) := by simp [total]
      rw [rest] at size space room slots
      rw [sum] at space
      rw [List.flatMap_cons, List.foldl_append] at room
      rw [List.flatMap_cons] at slots
      simp only [type, if_true] at inside
      obtain ⟨first, others⟩ := List.forall_mem_cons.mp size
      obtain ⟨all, inv', kept'⟩ := inv.segment bound modOff inside eq.symm first
        (off.mono (Nat.le_refl _) (by omega)) (off'.mono (Nat.le_refl _) (by omega)) kept
        (Nat.le_trans (le_openPages _ _) room)
        fun v inside => slots v (List.mem_append_left _ inside)
      have later := kept'.headersStill headers
      simp only [if_true]
      rw [later.phentsize, (later.phdr i less).2 (eq ▸ type), ← eq, headerAddr_succ]
      obtain ⟨stop', space', low', away, away', _⟩ := cursor_wraps space low off off'
      obtain ⟨all', kept''⟩ := ih (n := n) (i := i + 1) (by omega) (by omega) others space' low'
        away away' inv' kept' room fun v inside => slots v (List.mem_append_right _ inside)
      refine ⟨⟨kept, kept, throughout_append.mpr ⟨all, ?_⟩⟩, kept''⟩
      have run := segmentTrace_run ms (headerAddr m ms i) base s
      simp only [LoadEvent.run] at run ⊢
      rw [run]
      exact ⟨kept', kept', all'⟩

theorem Kept.headerTable {mem : Memory} (kept : Kept m mem ms me) (headers : Headers m ms me) :
    headerTable mem ms = headerTable m ms := by
  obtain ⟨count, size⟩ := kept.ehdr headers.header
  have addr : ∀ i, headerAddr mem ms i = headerAddr m ms i := fun i => by
    rw [headerAddr, phdrAddr, kept.phoff headers.header, size, headerAddr, phdrAddr]
  rw [Gapxos.headerTable, Gapxos.headerTable, tableFrom, tableFrom, count]
  refine List.map_congr_left fun i inside => ?_
  obtain ⟨low, start, stop⟩ := headers.phdr_inside (show i < ePhnum m ms by simpa using inside)
  rw [addr, headerAddr, low, kept.phdr start stop]

theorem Headers.headersIn {mem : Memory} (headers : Headers m ms me)
    (kept : Kept m mem ms me) : HeadersIn mem ms me := by
  have header := headers.header
  refine ⟨headers.fits, by omega, fun h inside => ?_⟩
  rw [kept.headerTable headers] at inside
  obtain ⟨i, range, rfl⟩ := List.mem_map.mp inside
  obtain ⟨low, start, stop⟩ := headers.phdr_inside (show i < ePhnum m ms by simpa using range)
  simp only [headerAddr, low]
  split
  · exact ⟨start, by omega⟩
  · exact ⟨start, by omega⟩

theorem reads_throughout {P : Loader → Prop} {events : List LoadEvent}
    (reads : ∀ e ∈ events, ∃ a n, e = .read a n) (now : P s) :
    Throughout LoadEvent.run P s events := by
  induction events with
  | nil => exact trivial
  | cons e events ih =>
    obtain ⟨first, later⟩ := List.forall_mem_cons.mp reads
    obtain ⟨a, n, rfl⟩ := first
    exact ⟨now, ih later⟩

end Load

def origin (map : BootMap) (ms : Nat) (s : Loader) : Nat :=
  findElf64PhysOrigin s.mem map (spanSize s.mem ms)

/-- The paths of the tables when lmain loads the module: the identity map and the stack. -/
def bootPaths : List (List (Fin 512)) := openPage [[], [0], [0, 0]] stackVirt

theorem boot_area (mem : Memory) (r stack : Nat) (bound : r + 256 ≤ 2 ^ 20) :
    Area r bootPaths (bootTables mem (4096 * r) stack) :=
  ((init_area mem r bound).add bound (stackAdd stack)
    (show (openPage [[], [0], [0, 0]] stackVirt).length ≤ 256 by decide)
    fun low => absurd low (show ¬ stackVirt % 2 ^ 48 < 2 ^ 23 by decide)).1

def loads (m : Memory) (ms : Nat) : List Phdr := loaded (headerTable m ms)

/-- add_page does not write to the module: the area of the tables, of which 1 MiB is zeroed, is
apart from it and is enough, and so are the slots of the first 8 MiB. -/
structure PagesApart (r ms me : Nat) (m : Memory) : Prop where
  bound : r + 256 ≤ 2 ^ 20
  area : Clear ms me (4096 * r) (4096 * (r + 256))
  room : (((loads m ms).flatMap Phdr.pages).foldl openPage bootPaths).length ≤ 256
  slots : ∀ v ∈ (loads m ms).flatMap Phdr.pages, SlotOff r ms me v

/-- The place for the segments is apart from the module and from the tables too. -/
structure LoadApart (r : Nat) (map : BootMap) (ms me : Nat) (s : Loader) : Prop
    extends PagesApart r ms me s.mem where
  low : origin map ms s + total (loads s.mem ms) ≤ 2 ^ 32
  place : Clear (origin map ms s) (origin map ms s + total (loads s.mem ms)) ms me
  tables : Clear (origin map ms s) (origin map ms s + total (loads s.mem ms))
    (4096 * r) (4096 * (r + 256))

theorem LoadApart.still {mem : Memory} {r stack ms me : Nat} {map : BootMap}
    (apart : LoadApart r map ms me (bootTables mem (4096 * r) stack))
    (headers : HeadersIn (bootTables mem (4096 * r) stack).mem ms me)
    (size : ∀ p ∈ loads (bootTables mem (4096 * r) stack).mem ms, p.filesz ≤ p.memsz) :
    LoadStill map ms (bootTables mem (4096 * r) stack) := by
  have inv := boot_area mem r stack apart.bound
  generalize bootTables mem (4096 * r) stack = s at *
  have kept : Kept s.mem s.mem ms me := fun _ _ _ => rfl
  have first : firstPhdr s.mem ms = headerAddr s.mem ms 0 := by
    rw [firstPhdr, headerAddr, phdrAddr, Nat.zero_mul, Nat.add_zero]
  have count : ePhnum s.mem ms < 2 ^ 16 := read_lt s.mem (ms + 56) 2
  obtain ⟨all, kept'⟩ := inv.pass apart.bound apart.area headers (Nat.zero_add _) count size
    (Nat.le_refl _) apart.low apart.place apart.tables kept apart.room apart.slots
  have reads : ∀ e ∈ checkTrace ms ++ (headerTable s.mem ms).flatMap (spanTrace ms),
      ∃ a n, e = .read a n := by
    intro e inside
    rcases List.mem_append.mp inside with check | span
    · simp only [checkTrace, List.mem_cons, List.not_mem_nil, or_false] at check
      rcases check with rfl | rfl | rfl | rfl <;> exact ⟨_, _, rfl⟩
    · obtain ⟨h, _, here⟩ := List.mem_flatMap.mp span
      exact spanTrace_reads here
  refine Throughout.mono (P := fun s' => Kept s.mem s'.mem ms me) ?_
    fun s' kept => kept.headersStill headers
  rw [loadTrace, throughout_append, throughout_append, reads_run reads, List.foldl_append,
    reads_run reads, first, passTrace_run]
  exact ⟨⟨reads_throughout reads kept, all⟩, kept', trivial⟩

end Gapxos
