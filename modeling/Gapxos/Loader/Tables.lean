import Gapxos.Loader.AddPage
import Gapxos.Vmm.Rights

/-! What add_page does to the tables. They are taken one after another from an area that
was zeroed before, so a new table has no entries and no two entries lead to the same one. -/
namespace Gapxos
open Bytes Radix

def loaderLeaf (physAddr : Nat) (exec : Bool) : Word :=
  let leaf := BitVec.ofNat 64 physAddr ||| pagePresent ||| pageRw
  if exec then leaf &&& ~~~pageNx else leaf ||| pageNx

/- The levels of add_page as one loop over the indices. -/
def Loader.openPath (s : Loader) (table : Nat) : List (Fin 512) → Loader × Nat
  | [] => (s, table)
  | i :: p =>
    (s.nextTable (table + 8 * i)).1.openPath (s.nextTable (table + 8 * i)).2 p

theorem setWord_setWord (mem : Memory) (a : Nat) (v w : Word) :
    setWord (setWord mem a v) a w = setWord mem a w := by
  funext x
  simp only [setWord, write]
  split <;> rfl

theorem addPage_eq (s : Loader) (v phys : Nat) (exec : Bool) :
    s.addPage v phys exec =
      { (s.openPath s.pml4t ((path v).take 3)).1 with
        mem := setWord (s.openPath s.pml4t ((path v).take 3)).1.mem
          ((s.openPath s.pml4t ((path v).take 3)).2 + 8 * (Fin.ofNat 512 (v / 2 ^ 12)).val)
          (loaderLeaf phys exec) } := by
  have whole : v &&& 0xffffffffffff = v % 2 ^ 48 := Nat.and_two_pow_sub_one_eq_mod v 48
  have one : ∀ u : Nat, u &&& 0x7fffffffff = u % 2 ^ 39 := fun u =>
    Nat.and_two_pow_sub_one_eq_mod u 39
  have two : ∀ u : Nat, u &&& 0x3fffffff = u % 2 ^ 30 := fun u =>
    Nat.and_two_pow_sub_one_eq_mod u 30
  have three : ∀ u : Nat, u &&& 0x1fffff = u % 2 ^ 21 := fun u =>
    Nat.and_two_pow_sub_one_eq_mod u 21
  have i₁ : v % 2 ^ 48 / 0x8000000000 = (Fin.ofNat 512 (v / 2 ^ 39)).val := by
    simp only [Fin.ofNat]; omega
  have i₂ : v % 2 ^ 48 % 2 ^ 39 / 0x40000000 = (Fin.ofNat 512 (v / 2 ^ 30)).val := by
    simp only [Fin.ofNat]; omega
  have i₃ : v % 2 ^ 48 % 2 ^ 39 % 2 ^ 30 / 0x200000 = (Fin.ofNat 512 (v / 2 ^ 21)).val := by
    simp only [Fin.ofNat]; omega
  have i₄ : v % 2 ^ 48 % 2 ^ 39 % 2 ^ 30 % 2 ^ 21 / 0x1000 = (Fin.ofNat 512 (v / 2 ^ 12)).val := by
    simp only [Fin.ofNat]; omega
  simp only [Loader.addPage, whole, one, two, three, i₁, i₂, i₃, i₄, setWord_setWord,
    word_setWord_same]
  rfl

theorem nextTable_point_le (s : Loader) (entry : Nat) :
    s.pageFreePoint ≤ (s.nextTable entry).1.pageFreePoint ∧
      (s.nextTable entry).1.pageFreePoint ≤ s.pageFreePoint + 0x1000 := by
  simp only [Loader.nextTable]
  split
  · exact ⟨Nat.le_refl _, Nat.le_add_right _ _⟩
  · exact ⟨Nat.le_add_right _ _, Nat.le_refl _⟩

theorem nextTable_point_absent {s : Loader} {entry : Nat}
    (absent : present (word s.mem entry) = false) :
    (s.nextTable entry).1.pageFreePoint = s.pageFreePoint + 0x1000 := by
  simp only [Loader.nextTable, absent, Bool.false_eq_true, if_false]

theorem openPath_point_le (s : Loader) (table : Nat) (p : List (Fin 512)) :
    s.pageFreePoint ≤ (s.openPath table p).1.pageFreePoint ∧
      (s.openPath table p).1.pageFreePoint ≤ s.pageFreePoint + 0x1000 * p.length := by
  induction p generalizing s table with
  | nil => exact ⟨Nat.le_refl _, Nat.le_refl _⟩
  | cons i p ih =>
    have one := nextTable_point_le s (table + 8 * i)
    have rest := ih (s.nextTable (table + 8 * i)).1 (s.nextTable (table + 8 * i)).2
    simp only [Loader.openPath, List.length_cons]
    omega

theorem pointer_eq (e : Word) :
    (e &&& 0xfffffffffffff000#64).toNat % 2 ^ 32 = 4096 * (hwFrame e % 2 ^ 20) := by
  have high : (e.toNat &&& 0xfffffffffffff000) / 2 ^ 12 = e.toNat / 2 ^ 12 % 2 ^ 52 := by
    rw [Nat.and_div_two_pow, show 0xfffffffffffff000 / 2 ^ 12 = 2 ^ 52 - 1 from rfl,
      Nat.and_two_pow_sub_one_eq_mod]
  have low : (e.toNat &&& 0xfffffffffffff000) % 2 ^ 12 = 0 := by
    rw [Nat.and_mod_two_pow, show 0xfffffffffffff000 % 2 ^ 12 = 0 from rfl, Nat.and_zero]
  have mask : (0xfffffffffffff000#64).toNat = 0xfffffffffffff000 := rfl
  rw [BitVec.toNat_and, mask, hwFrame]
  generalize e.toNat &&& 0xfffffffffffff000 = x at high low ⊢
  omega

theorem loaderEntry_child {k : Nat} (low : k < 2 ^ 20) :
    child (loaderEntry (4096 * k)) = some k := by
  rw [loaderEntry, Nat.mod_eq_of_lt (by omega)]
  exact newEntry_child pageRw_flagWord (by omega)

section Level

variable {s : Loader} {f g k : Nat} {i : Fin 512}

theorem Loader.nextTable_there (edge : child (frames s.mem f i) = some g) (low : g < 2 ^ 20) :
    s.nextTable (4096 * f + 8 * i) = (s, 4096 * g) := by
  obtain ⟨there, _, frame⟩ := child_eq_some.mp edge
  have here : word s.mem (4096 * f + 8 * i) = frames s.mem f i := rfl
  simp only [Loader.nextTable, here, there, if_true, pointer_eq, frame, Nat.mod_eq_of_lt low]

def Loader.link (s : Loader) (f : Nat) (i : Fin 512) (k : Nat) : Loader :=
  { s with
    mem := setWord s.mem (4096 * f + 8 * i) (loaderEntry (4096 * k))
    pageFreePoint := 4096 * (k + 1) }

theorem Loader.nextTable_new (absent : present (frames s.mem f i) = false)
    (point : s.pageFreePoint = 4096 * k) (low : k < 2 ^ 20) :
    s.nextTable (4096 * f + 8 * i) = (s.link f i k, 4096 * k) := by
  have here : word s.mem (4096 * f + 8 * i) = frames s.mem f i := rfl
  obtain ⟨_, _, frame⟩ := child_eq_some.mp (loaderEntry_child low)
  simp only [Loader.nextTable, here, absent, Bool.false_eq_true, if_false, point,
    word_setWord_same, pointer_eq, frame, Nat.mod_eq_of_lt low]
  rfl

theorem link_frames (s : Loader) (f : Nat) (i : Fin 512) (k : Nat) :
    frames (s.link f i k).mem = store (frames s.mem) f i (loaderEntry (4096 * k)) :=
  frames_setWord s.mem f i _

end Level

def identityWord (i : Fin 512) : Word :=
  if i.val < 4 then identityEntry (0x200000 * i.val) else 0

structure Tables (r k : Nat) (s : Loader) : Prop where
  root : s.pml4t = 4096 * r
  point : s.pageFreePoint = 4096 * (r + k)
  space : k ≤ 256
  tree : TableTree (frames s.mem) r
  used : ∀ p f, p.length ≤ 3 → tableAt child (frames s.mem) r p = some f → r ≤ f ∧ f < r + k
  blank : ∀ f, r + k ≤ f → f < r + 256 → frames s.mem f = fun _ => 0
  upper : ∀ p f i, p.length ≤ 2 → tableAt child (frames s.mem) r p = some f → p ≠ [0, 0] →
    frames s.mem f i = 0 ∨ ∃ g, g < 2 ^ 20 ∧ frames s.mem f i = loaderEntry (4096 * g)
  first : frames s.mem r 0 = loaderEntry (4096 * (r + 1))
  second : frames s.mem (r + 1) 0 = loaderEntry (4096 * (r + 2))
  third : frames s.mem (r + 2) = identityWord

/-- Tables were added: what was there is as before, and a new last table has no entry. -/
structure Opened (r : Nat) (s s' : Loader) : Prop where
  keeps : ∀ p f, p.length ≤ 3 → tableAt child (frames s.mem) r p = some f →
    tableAt child (frames s'.mem) r p = some f ∧ (p.length = 3 → frames s'.mem f = frames s.mem f)
  fresh : ∀ p f, p.length = 3 → tableAt child (frames s'.mem) r p = some f →
    tableAt child (frames s.mem) r p = some f ∨ frames s'.mem f = fun _ => 0
  outside : ∀ x, x < 4096 * r ∨ 4096 * (r + 256) ≤ x → s'.mem x = s.mem x

section Open

variable {r k f : Nat} {s s' : Loader} {q p : List (Fin 512)} {i : Fin 512}

theorem Opened.refl (r : Nat) (s : Loader) : Opened r s s :=
  ⟨fun _ _ _ reach => ⟨reach, fun _ => rfl⟩, fun _ _ _ reach => .inl reach, fun _ _ => rfl⟩

theorem Opened.trans {s'' : Loader} (one : Opened r s s') (two : Opened r s' s'') :
    Opened r s s'' := by
  refine ⟨fun p f len reach => ?_, fun p f len reach => ?_, fun x off => ?_⟩
  · obtain ⟨reach', same⟩ := one.keeps p f len reach
    obtain ⟨reach'', same'⟩ := two.keeps p f len reach'
    exact ⟨reach'', fun three => (same' three).trans (same three)⟩
  · rcases two.fresh p f len reach with reach' | blank
    · rcases one.fresh p f len reach' with old | blank
      · exact .inl old
      · exact .inr (((two.keeps p f (by omega) reach').2 len).trans blank)
    · exact .inr blank
  · rw [two.outside x off, one.outside x off]

theorem Tables.reach_second (inv : Tables r k s) (bound : r + 256 ≤ 2 ^ 20) :
    tableAt child (frames s.mem) r [0] = some (r + 1) ∧
      tableAt child (frames s.mem) r [0, 0] = some (r + 2) := by
  simp [tableAt, inv.first, inv.second, loaderEntry_child (show r + 1 < 2 ^ 20 by omega),
    loaderEntry_child (show r + 2 < 2 ^ 20 by omega)]

section Link

variable (inv : Tables r k s) (bound : r + 256 ≤ 2 ^ 20) (free : k < 256)
  (reach : tableAt child (frames s.mem) r q = some f) (len : q.length ≤ 2)
include inv free

theorem Tables.next_childless (j : Fin 512) : child (frames s.mem (r + k) j) = none := by
  rw [inv.blank (r + k) (Nat.le_refl _) (by omega)]
  exact child_absent (show present 0 = false by decide)

include bound reach len

theorem Tables.link_paths {p : List (Fin 512)} {g : Nat} (short : p.length ≤ 3)
    (reach' : tableAt child (frames (s.link f i (r + k)).mem) r p = some g) :
    (p = q ++ [i] ∧ g = r + k) ∨ tableAt child (frames s.mem) r p = some g := by
  have here := inv.used q f (by omega) reach
  rw [link_frames] at reach'
  by_cases through : q ++ [i] <+: p
  · obtain ⟨t, rfl⟩ := through
    rw [List.append_assoc, List.singleton_append, tableAt_link inv.tree reach (by omega)
      (loaderEntry_child (show r + k < 2 ^ 20 by omega)) (by omega)
      (inv.next_childless free)] at reach'
    cases t with
    | nil => exact .inl ⟨by simp, (Option.some.inj reach').symm⟩
    | cons j t => simp at reach'
  · rw [tableAt_store _ inv.tree reach (by omega) (by omega) through] at reach'
    exact .inr reach'

theorem Tables.link_tables (off : q ≠ [0, 0]) (none : frames s.mem f i = 0) :
    Tables r (k + 1) (s.link f i (r + k)) := by
  have here := inv.used q f (by omega) reach
  have two := inv.reach_second bound
  -- an entry that is there is not the one written
  have other : ∀ g j w, frames s.mem g j = w → w ≠ 0 → ¬ (g = f ∧ j = i) := by
    rintro g j w eq ne ⟨rfl, rfl⟩
    exact ne (eq.symm.trans none)
  constructor
  case root => exact inv.root
  case point => rfl
  case space => omega
  case tree =>
    have unused : Unused child 3 (frames s.mem) r (r + k) := by
      intro p short reach'
      have := inv.used p _ short reach'
      omega
    rw [link_frames]
    exact tree_link inv.tree reach (by omega)
      (loaderEntry_child (show r + k < 2 ^ 20 by omega)) unused (inv.next_childless free)
  case used =>
    intro p g short reach'
    rcases inv.link_paths bound free reach len short reach' with ⟨_, rfl⟩ | old
    · omega
    · have := inv.used p g short old
      omega
  case blank =>
    intro g low high
    rw [link_frames, store_other_frame (by omega)]
    exact inv.blank g (by omega) high
  case upper =>
    intro p g j short reach' ne
    rw [link_frames]
    rcases inv.link_paths bound free reach len (by omega) reach' with ⟨_, rfl⟩ | old
    · refine .inl ?_
      rw [store_other_frame (by omega), inv.blank (r + k) (Nat.le_refl _) (by omega)]
    · by_cases hit : g = f ∧ j = i
      · exact .inr ⟨r + k, by omega, by rw [hit.1, hit.2, store_same]⟩
      · rw [store_other hit]
        exact inv.upper p g j short old ne
  case first =>
    rw [link_frames, store_other (other _ _ _ inv.first (by simp [loaderEntry, pagePresent])),
      inv.first]
  case second =>
    rw [link_frames, store_other (other _ _ _ inv.second (by simp [loaderEntry, pagePresent])),
      inv.second]
  case third =>
    have ne : r + 2 ≠ f := by
      intro same
      exact off (inv.tree q [0, 0] f (by omega) (by decide) reach (same ▸ two.2))
    rw [link_frames, store_other_frame ne, inv.third]

theorem Tables.link_opened (none : frames s.mem f i = 0) :
    Opened r s (s.link f i (r + k)) := by
  have here := inv.used q f (by omega) reach
  refine ⟨fun p g short reach' => ?_, fun p g short reach' => ?_, fun x out => ?_⟩
  · have off : ¬ q ++ [i] <+: p := by
      rintro ⟨t, rfl⟩
      rw [List.append_assoc, List.singleton_append, tableAt_append, reach, Option.bind_some,
        tableAt, none] at reach'
      cases reach'
    rw [link_frames, tableAt_store _ inv.tree reach (by omega) (by omega) off]
    refine ⟨reach', fun three => store_other_frame ?_⟩
    rintro rfl
    have := inv.tree p q g short (by omega) reach' reach
    rw [this] at three
    omega
  · rcases inv.link_paths bound free reach len (by omega) reach' with ⟨_, rfl⟩ | old
    · refine .inr ?_
      rw [link_frames, store_other_frame (by omega),
        inv.blank (r + k) (Nat.le_refl _) (by omega)]
    · exact .inl old
  · have := i.isLt
    exact setWord_apply (by omega)

theorem Tables.link (off : q ≠ [0, 0]) (none : frames s.mem f i = 0) :
    Tables r (k + 1) (s.link f i (r + k)) ∧ Opened r s (s.link f i (r + k)) ∧
      tableAt child (frames (s.link f i (r + k)).mem) r (q ++ [i]) = some (r + k) := by
  have here := inv.used q f (by omega) reach
  refine ⟨inv.link_tables bound free reach len off none,
    inv.link_opened bound free reach len none, ?_⟩
  rw [link_frames]
  have new := tableAt_link (i := i) inv.tree reach (by omega)
    (loaderEntry_child (show r + k < 2 ^ 20 by omega)) (by omega) (inv.next_childless free) []
  simpa using new

end Link

theorem Tables.openPath (inv : Tables r k s) (bound : r + 256 ≤ 2 ^ 20)
    (reach : tableAt child (frames s.mem) r q = some f) (len : q.length + p.length = 3)
    (off : (q ++ p).take 2 ≠ [0, 0])
    (room : (s.openPath (4096 * f) p).1.pageFreePoint ≤ 4096 * (r + 256)) :
    ∃ k' s' g, s.openPath (4096 * f) p = (s', 4096 * g) ∧ Tables r k' s' ∧ Opened r s s' ∧
      tableAt child (frames s'.mem) r (q ++ p) = some g := by
  induction p generalizing s f q k with
  | nil => exact ⟨k, s, f, rfl, inv, Opened.refl r s, by rw [List.append_nil]; exact reach⟩
  | cons i p ih =>
    simp only [List.length_cons] at len
    have ne : q ≠ [0, 0] := by
      rintro rfl
      exact off (by simp)
    have split : q ++ i :: p = (q ++ [i]) ++ p := by simp
    rcases inv.upper q f i (by omega) reach ne with none | ⟨g, low, entry⟩
    · -- the table is missing
      have absent : present (frames s.mem f i) = false := by rw [none]; rfl
      have free : k < 256 := by
        have rest := (openPath_point_le (s.nextTable (4096 * f + 8 * i)).1
          (s.nextTable (4096 * f + 8 * i)).2 p).1
        have taken := nextTable_point_absent
          (show present (word s.mem (4096 * f + 8 * i)) = false from absent)
        have point := inv.point
        have limit : (s.nextTable (4096 * f + 8 * i)).1.pageFreePoint ≤ 4096 * (r + 256) :=
          Nat.le_trans rest room
        omega
      have step := Loader.nextTable_new absent inv.point (by omega)
      obtain ⟨inv', opened, reach'⟩ := inv.link bound free reach (by omega) ne none
      rw [split] at off ⊢
      simp only [Loader.openPath, step] at room ⊢
      obtain ⟨k', s', g, eq, inv'', opened', at_g⟩ :=
        ih inv' reach' (by simp; omega) off room
      exact ⟨k', s', g, eq, inv'', opened.trans opened', at_g⟩
    · have edge : child (frames s.mem f i) = some g := by rw [entry, loaderEntry_child low]
      have step := Loader.nextTable_there edge low
      rw [split] at off ⊢
      simp only [Loader.openPath, step] at room ⊢
      exact ih inv (tableAt_snoc reach edge) (by simp; omega) off room

end Open

/-- The arguments of one call of add_page. -/
structure Add where
  virt : Nat
  phys : Nat
  exec : Bool

def Loader.add (s : Loader) (a : Add) : Loader := s.addPage a.virt a.phys a.exec

/-- The last call for the page of `v`. -/
def lastAdd (adds : List Add) (v : Nat) : Option Add :=
  (adds.filter fun a => pageOf a.virt = pageOf v).getLast?

def leafWord (a : Option Add) : Word := (a.map fun a => loaderLeaf a.phys a.exec).getD 0

structure Mapped (r k : Nat) (adds : List Add) (s : Loader) : Prop extends Tables r k s where
  leaf : ∀ v pt, tableAt child (frames s.mem) r ((path v).take 3) = some pt →
    frames s.mem pt (Fin.ofNat 512 (v / 2 ^ 12)) = leafWord (lastAdd adds v)
  there : ∀ a ∈ adds, UpperPresent (frames s.mem) r a.virt

section Adds

variable {r k : Nat} {s : Loader} {adds : List Add} {a : Add} {v : Nat}

theorem lastAdd_snoc (adds : List Add) (a : Add) (v : Nat) :
    lastAdd (adds ++ [a]) v = if pageOf a.virt = pageOf v then some a else lastAdd adds v := by
  simp only [lastAdd, List.filter_append, List.getLast?_append]
  split
  · rename_i same
    simp [same]
  · rename_i other
    simp [other]

theorem lastAdd_mem (found : lastAdd adds v = some a) : a ∈ adds ∧ pageOf a.virt = pageOf v := by
  have inside := List.mem_of_getLast? found
  simpa using inside

theorem Tables.leaf (inv : Tables r k s) (bound : r + 256 ≤ 2 ^ 20) {p : List (Fin 512)} {g : Nat}
    (reach : tableAt child (frames s.mem) r p = some g) (len : p.length = 3) (i : Fin 512)
    (w : Word) : Tables r k { s with mem := setWord s.mem (4096 * g + 8 * i) w } := by
  have two := inv.reach_second bound
  have apart : ∀ q f, q.length ≤ 2 → tableAt child (frames s.mem) r q = some f → f ≠ g := by
    rintro q f short reach' rfl
    have := inv.tree q p f (by omega) (by omega) reach' reach
    rw [this] at short
    omega
  have paths : ∀ q, q.length ≤ 3 →
      tableAt child (store (frames s.mem) g i w) r q = tableAt child (frames s.mem) r q :=
    fun q short => tableAt_store_leaf w inv.tree reach len short
  have here := inv.used p g (by omega) reach
  constructor
  case root => exact inv.root
  case point => exact inv.point
  case space => exact inv.space
  case tree =>
    rw [frames_setWord]
    exact tree_store_leaf w inv.tree reach len
  case used =>
    intro q f short reach'
    rw [frames_setWord, paths q short] at reach'
    exact inv.used q f short reach'
  case blank =>
    intro f low high
    rw [frames_setWord, store_other_frame (by omega), inv.blank f low high]
  case upper =>
    intro q f j short reach' ne
    rw [frames_setWord, paths q (by omega)] at reach'
    rw [frames_setWord, store_other_frame (apart q f short reach')]
    exact inv.upper q f j short reach' ne
  case first => rw [frames_setWord, store_other_frame (apart [] r (by decide) rfl), inv.first]
  case second =>
    rw [frames_setWord, store_other_frame (apart [0] _ (by decide) two.1), inv.second]
  case third =>
    rw [frames_setWord, store_other_frame (apart [0, 0] _ (by decide) two.2), inv.third]

theorem Mapped.add (inv : Mapped r k adds s) (bound : r + 256 ≤ 2 ^ 20)
    (off : (path a.virt).take 2 ≠ [0, 0])
    (room : (s.add a).pageFreePoint ≤ 4096 * (r + 256)) :
    (∃ k', Mapped r k' (adds ++ [a]) (s.add a)) ∧
      ∀ x, x < 4096 * r ∨ 4096 * (r + 256) ≤ x → (s.add a).mem x = s.mem x := by
  have run := addPage_eq s a.virt a.phys a.exec
  rw [inv.root] at run
  have point : (s.openPath (4096 * r) ((path a.virt).take 3)).1.pageFreePoint ≤
      4096 * (r + 256) := by
    rw [Loader.add, run] at room
    exact room
  obtain ⟨k', s', g, eq, tables, opened, reach⟩ := inv.toTables.openPath bound (q := [])
    (p := (path a.virt).take 3) rfl rfl off point
  rw [List.nil_append] at reach
  rw [eq] at run
  rw [Loader.add, run]
  have here := tables.used _ g (by simp [path]) reach
  have space := tables.space
  have store_eq := frames_setWord s'.mem g (Fin.ofNat 512 (a.virt / 2 ^ 12))
    (loaderLeaf a.phys a.exec)
  have paths : ∀ q, q.length ≤ 3 →
      tableAt child (store (frames s'.mem) g (Fin.ofNat 512 (a.virt / 2 ^ 12))
        (loaderLeaf a.phys a.exec)) r q = tableAt child (frames s'.mem) r q :=
    fun q short => tableAt_store_leaf _ tables.tree reach (by simp [path]) short
  refine ⟨⟨k', tables.leaf bound reach (by simp [path]) _ _, fun v pt at_v => ?_,
    fun b inside => ?_⟩,
    fun x out => ?_⟩
  · rw [store_eq, paths _ (by simp [path])] at at_v
    rw [store_eq, lastAdd_snoc]
    by_cases same : pageOf a.virt = pageOf v
    · have whole : path a.virt = path v := (path_eq_iff _ _).mpr same
      have index := whole
      simp only [path, List.cons.injEq] at index
      rw [← whole] at at_v
      obtain rfl := Option.some.inj (reach.symm.trans at_v)
      rw [if_pos same, ← index.2.2.2.1, store_same]
      rfl
    · have other : ¬ (pt = g ∧ Fin.ofNat 512 (v / 2 ^ 12) = Fin.ofNat 512 (a.virt / 2 ^ 12)) := by
        rintro ⟨rfl, last⟩
        have front := tables.tree _ _ pt (by simp [path]) (by simp [path]) at_v reach
        refine same ((path_eq_iff _ _).mp ?_)
        rw [path_split a.virt, path_split v, front, last]
      rw [if_neg same, store_other other]
      -- either the last table was there before, or it is new and no call was made for `v`
      by_cases old : UpperPresent (frames s.mem) r v
      · obtain ⟨pt', at_old⟩ := old
        obtain ⟨kept, content⟩ := opened.keeps _ pt' (by simp [path]) at_old
        obtain rfl := Option.some.inj (kept.symm.trans at_v)
        rw [content (by simp [path]), inv.leaf v pt' at_old]
      · have unseen : lastAdd adds v = none := by
          cases found : lastAdd adds v with
          | none => rfl
          | some b =>
            obtain ⟨inside, page⟩ := lastAdd_mem found
            have there := inv.there b inside
            rw [UpperPresent, (path_eq_iff _ _).mpr page] at there
            exact absurd there old
        rcases opened.fresh _ pt (by simp [path]) at_v with at_old | blank
        · exact absurd ⟨pt, at_old⟩ old
        · rw [blank, unseen]
          rfl
  · rw [UpperPresent, store_eq, paths _ (by simp [path])]
    rcases List.mem_append.mp inside with before | now
    · obtain ⟨pt, at_b⟩ := inv.there b before
      exact ⟨pt, (opened.keeps _ pt (by simp [path]) at_b).1⟩
    · rw [List.mem_singleton.mp now]
      exact ⟨g, reach⟩
  · rw [← opened.outside x out]
    have := (Fin.ofNat 512 (a.virt / 2 ^ 12)).isLt
    exact setWord_apply (by omega)

theorem Mapped.congr (inv : Mapped r k adds s) (bound : r + 256 ≤ 2 ^ 20) {mem : Memory}
    (same : ∀ x, 4096 * r ≤ x → x < 4096 * (r + 256) → mem x = s.mem x) :
    Mapped r k adds { s with mem } := by
  have two := inv.reach_second bound
  have frame : ∀ f, r ≤ f → f < r + 256 → frames mem f = frames s.mem f := fun f low high =>
    frames_congr fun x below above => same x (by omega) (by omega)
  have space := inv.space
  have agree : ∀ p f, p.length ≤ 3 → tableAt child (frames s.mem) r p = some f →
      frames s.mem f = frames mem f := by
    intro p f short reach
    have := inv.used p f short reach
    exact (frame f (by omega) (by omega)).symm
  have paths : ∀ p, p.length ≤ 3 →
      tableAt child (frames mem) r p = tableAt child (frames s.mem) r p :=
    fun p short => tableAt_agree agree (by omega)
  constructor
  case leaf =>
    intro v pt reach
    rw [paths _ (by simp [path])] at reach
    rw [← agree _ pt (by simp [path]) reach]
    exact inv.leaf v pt reach
  case there =>
    intro b inside
    rw [UpperPresent, paths _ (by simp [path])]
    exact inv.there b inside
  constructor
  case root => exact inv.root
  case point => exact inv.point
  case space => exact inv.space
  case tree => exact tree_agree agree inv.tree
  case used =>
    intro p f short reach
    rw [paths p short] at reach
    exact inv.used p f short reach
  case blank =>
    intro f low high
    rw [frame f (by omega) high, inv.blank f low high]
  case upper =>
    intro p f i short reach ne
    rw [paths p (by omega)] at reach
    rw [← agree p f (by omega) reach]
    exact inv.upper p f i short reach ne
  case first => rw [← agree [] r (by decide) rfl, inv.first]
  case second => rw [← agree [0] _ (by decide) two.1, inv.second]
  case third => rw [← agree [0, 0] _ (by decide) two.2, inv.third]

end Adds

section Init

variable (mem : Memory) (r : Nat)

theorem identityWord_child (i : Fin 512) : child (identityWord i) = none := by
  unfold identityWord
  split
  · rename_i low
    have cases : i.val = 0 ∨ i.val = 1 ∨ i.val = 2 ∨ i.val = 3 := by omega
    rcases cases with eq | eq | eq | eq <;> rw [eq] <;> decide
  · decide

theorem identityWord_stored {m : Mem} {f : Nat} (blank : ∀ i, m f i = 0) (i : Fin 512) :
    store (store (store (store m f 0 (identityEntry 0x000000)) f 1 (identityEntry 0x200000))
      f 2 (identityEntry 0x400000)) f 3 (identityEntry 0x600000) f i = identityWord i := by
  simp only [store, true_and, blank]
  unfold identityWord
  by_cases three : i = 3
  · subst three; rfl
  by_cases two : i = 2
  · subst two; rfl
  by_cases one : i = 1
  · subst one; rfl
  by_cases zero : i = 0
  · subst zero; rfl
  have high : ¬ i.val < 4 := by
    simp only [Fin.ext_iff] at three two one zero
    have : (3 : Fin 512).val = 3 := rfl
    have : (2 : Fin 512).val = 2 := rfl
    have : (1 : Fin 512).val = 1 := rfl
    have : (0 : Fin 512).val = 0 := rfl
    omega
  simp only [three, two, one, zero, high, if_false]

theorem init_frames :
    (∀ i, frames (initPageStructure mem (4096 * r)).mem r i =
      if i = 0 then loaderEntry (4096 * (r + 1)) else 0) ∧
    (∀ i, frames (initPageStructure mem (4096 * r)).mem (r + 1) i =
      if i = 0 then loaderEntry (4096 * (r + 2)) else 0) ∧
    frames (initPageStructure mem (4096 * r)).mem (r + 2) = identityWord ∧
    (∀ f, r + 3 ≤ f → f < r + 256 →
      frames (initPageStructure mem (4096 * r)).mem f = fun _ => 0) ∧
    ∀ x, x < 4096 * r ∨ 4096 * (r + 256) ≤ x →
      (initPageStructure mem (4096 * r)).mem x = mem x := by
  have zeroed : ∀ f, r ≤ f → f < r + 256 →
      frames (zeroMemory mem (4096 * r) 1048576) f = fun _ => 0 := by
    intro f low high
    refine frames_zero fun x below above => ?_
    rw [zeroMemory_apply, if_pos (by omega)]
  have slot : ∀ mem f w (i : Fin 512) a, a = 4096 * f + 8 * i.val →
      frames (setWord mem a w) = store (frames mem) f i w := by
    rintro mem f w i _ rfl
    exact frames_setWord mem f i w
  have whole : frames (initPageStructure mem (4096 * r)).mem =
      store (store (store (store (store (store (frames (zeroMemory mem (4096 * r) 1048576))
        r 0 (loaderEntry (4096 * r + 0x1000))) (r + 1) 0 (loaderEntry (4096 * r + 0x2000)))
        (r + 2) 0 (identityEntry 0x000000)) (r + 2) 1 (identityEntry 0x200000))
        (r + 2) 2 (identityEntry 0x400000)) (r + 2) 3 (identityEntry 0x600000) := by
    simp only [initPageStructure]
    rw [slot _ (r + 2) _ 3 _ (by show _ = _ + 8 * 3; omega),
      slot _ (r + 2) _ 2 _ (by show _ = _ + 8 * 2; omega),
      slot _ (r + 2) _ 1 _ (by show _ = _ + 8 * 1; omega),
      slot _ (r + 2) _ 0 _ (by show _ = _ + 8 * 0; omega),
      slot _ (r + 1) _ 0 _ (by show _ = _ + 8 * 0; omega),
      slot _ r _ 0 _ (by show _ = _ + 8 * 0; omega)]
  have ne₁ : r ≠ r + 1 := by omega
  have ne₂ : r ≠ r + 2 := by omega
  have ne₃ : r + 1 ≠ r + 2 := by omega
  rw [whole]
  refine ⟨fun i => ?_, fun i => ?_, ?_, fun f low high => ?_, fun x out => ?_⟩
  · simp only [store_other_frame ne₂, store_other_frame ne₁]
    by_cases zero : i = 0
    · rw [zero, store_same, if_pos rfl, Nat.mul_add]
    · rw [store_other_index zero, if_neg zero, zeroed r (by omega) (by omega)]
  · simp only [store_other_frame ne₃]
    by_cases zero : i = 0
    · rw [zero, store_same, if_pos rfl, Nat.mul_add]
    · rw [store_other_index zero, if_neg zero, store_other_frame ne₁.symm,
        zeroed (r + 1) (by omega) (by omega)]
  · refine funext (identityWord_stored fun i => ?_)
    rw [store_other_frame ne₃.symm, store_other_frame ne₂.symm,
      zeroed (r + 2) (by omega) (by omega)]
  · simp only [store_other_frame (show f ≠ r + 2 by omega),
      store_other_frame (show f ≠ r + 1 by omega),
      store_other_frame (show f ≠ r by omega)]
    exact zeroed f (by omega) high
  · simp only [initPageStructure]
    rw [setWord_apply (by omega), setWord_apply (by omega), setWord_apply (by omega),
      setWord_apply (by omega), setWord_apply (by omega), setWord_apply (by omega),
      zeroMemory_apply, if_neg (by omega)]

theorem init_paths (bound : r + 256 ≤ 2 ^ 20) (p : List (Fin 512)) (f : Nat)
    (reach : tableAt child (frames (initPageStructure mem (4096 * r)).mem) r p = some f) :
    (p = [] ∧ f = r) ∨ (p = [0] ∧ f = r + 1) ∨ (p = [0, 0] ∧ f = r + 2) := by
  obtain ⟨row, row', row'', _⟩ := init_frames mem r
  have edge := loaderEntry_child (show r + 1 < 2 ^ 20 by omega)
  have edge' := loaderEntry_child (show r + 2 < 2 ^ 20 by omega)
  have blank : child (0 : Word) = none := by decide
  cases p with
  | nil => exact .inl ⟨rfl, (Option.some.inj reach).symm⟩
  | cons i p =>
    rw [tableAt, row] at reach
    by_cases zero : i = 0
    · subst zero
      rw [if_pos rfl, edge, Option.bind_some] at reach
      cases p with
      | nil => exact .inr (.inl ⟨rfl, (Option.some.inj reach).symm⟩)
      | cons j p =>
        rw [tableAt, row'] at reach
        by_cases zero : j = 0
        · subst zero
          rw [if_pos rfl, edge', Option.bind_some] at reach
          cases p with
          | nil => exact .inr (.inr ⟨rfl, (Option.some.inj reach).symm⟩)
          | cons l p =>
            rw [tableAt, row'', identityWord_child] at reach
            cases reach
        · rw [if_neg zero, blank] at reach
          cases reach
    · rw [if_neg zero, blank] at reach
      cases reach

theorem init_tables (bound : r + 256 ≤ 2 ^ 20) :
    Mapped r 3 [] (initPageStructure mem (4096 * r)) := by
  obtain ⟨row, row', row'', rest, _⟩ := init_frames mem r
  have paths := init_paths mem r bound
  constructor
  case leaf =>
    intro v pt reach
    rcases paths _ pt reach with ⟨long, _⟩ | ⟨long, _⟩ | ⟨long, _⟩ <;> simp [path] at long
  case there => simp
  constructor
  case root => rfl
  case point => show 4096 * r + 0x3000 = _; omega
  case space => omega
  case tree =>
    intro p q f _ _ at_p at_q
    rcases paths p f at_p with ⟨rfl, one⟩ | ⟨rfl, one⟩ | ⟨rfl, one⟩ <;>
      rcases paths q f at_q with ⟨rfl, other⟩ | ⟨rfl, other⟩ | ⟨rfl, other⟩ <;>
      first | rfl | omega
  case used =>
    intro p f _ reach
    rcases paths p f reach with ⟨_, rfl⟩ | ⟨_, rfl⟩ | ⟨_, rfl⟩ <;> omega
  case blank => exact fun f low high => rest f (by omega) high
  case upper =>
    intro p f i _ reach off
    rcases paths p f reach with ⟨_, rfl⟩ | ⟨_, rfl⟩ | ⟨rfl, _⟩
    · rw [row]
      split
      · exact .inr ⟨f + 1, by omega, rfl⟩
      · exact .inl rfl
    · rw [row']
      split
      · exact .inr ⟨r + 2, by omega, rfl⟩
      · exact .inl rfl
    · exact absurd rfl off
  case first => rw [row, if_pos rfl]
  case second => rw [row', if_pos rfl]
  case third => exact row''

end Init

end Gapxos
