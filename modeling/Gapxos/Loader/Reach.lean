import Gapxos.Loader.Image

/-! All that the tables of the loader map: the first 8 MiB, a page of stack, and the pages of the
kernel's segments, which lie in the memory that find_elf64_phys_origin chose for them. -/
namespace Gapxos
open Bytes Radix

section Absent

variable {r k : Nat} {s : Loader} {adds : List Add} {v : Nat}

theorem Tables.upper_entry (inv : Tables r k s) {q : List (Fin 512)} {f : Nat}
    (short : q.length ≤ 2) (reach : tableAt child (frames s.mem) r q = some f)
    (off : q ≠ [0, 0]) (i : Fin 512) :
    frames s.mem f i = 0 ∨ ∃ g, child (frames s.mem f i) = some g := by
  rcases inv.upper q f i short reach off with zero | ⟨g, low, entry⟩
  · exact .inl zero
  · exact .inr ⟨g, by rw [entry, loaderEntry_child low]⟩

theorem child_zero : child 0 = none := by decide

theorem Tables.view_none (inv : Tables r k s) (outside : 2 ^ 30 ≤ v % 2 ^ 48)
    (absent : ¬ UpperPresent (frames s.mem) r v) : view (frames s.mem) r v = none := by
  have off := path_off_identity outside
  unfold UpperPresent at absent
  obtain ⟨a, b, c, d, eq⟩ : ∃ a b c d, path v = [a, b, c, d] := ⟨_, _, _, _, rfl⟩
  rw [eq] at off absent
  simp only [List.take_succ_cons, List.take_zero] at off absent
  have first : [] ≠ ([0, 0] : List (Fin 512)) := by simp
  have second : [a] ≠ ([0, 0] : List (Fin 512)) := by simp
  have here : tableAt child (frames s.mem) r [] = some r := rfl
  rw [view, eq]
  rcases inv.upper_entry (by simp) here first a with zero | ⟨f, one⟩
  · simp only [trace, zero, child_zero]
    rfl
  have reach : tableAt child (frames s.mem) r [a] = some f := by simp [tableAt, one]
  rcases inv.upper_entry (by simp) reach second b with zero | ⟨g, two⟩
  · simp only [trace, one, zero, child_zero]
    rfl
  have reach' : tableAt child (frames s.mem) r [a, b] = some g := by simp [tableAt, one, two]
  rcases inv.upper_entry (by simp) reach' off c with zero | ⟨h, three⟩
  · simp only [trace, one, two, zero, child_zero]
    rfl
  · exact absurd ⟨h, by simp [tableAt, one, two, three]⟩ absent

theorem Mapped.view_added (inv : Mapped r k adds s) (outside : 2 ^ 30 ≤ v % 2 ^ 48) {x : Xlate}
    (mapped : view (frames s.mem) r v = some x) :
    ∃ a ∈ adds, pageOf a.virt = pageOf v ∧ leafView (loaderLeaf a.phys a.exec) = some x := by
  by_cases upper : UpperPresent (frames s.mem) r v
  · rw [inv.leaf_view outside upper] at mapped
    cases last : lastAdd adds v with
    | none =>
      rw [last] at mapped
      cases mapped
    | some a =>
      obtain ⟨inside, same⟩ := lastAdd_mem last
      rw [last] at mapped
      exact ⟨a, inside, same, mapped⟩
  · rw [inv.view_none outside upper] at mapped
    cases mapped

theorem Tables.identity_iff (inv : Tables r k s) (bound : r + 256 ≤ 2 ^ 20)
    (inside : v % 2 ^ 48 < 2 ^ 30) (x : Xlate) :
    view (frames s.mem) r v = some x ↔
      v % 2 ^ 48 < 0x800000 ∧ x = ⟨v % 2 ^ 48 / 4096, true, false, false⟩ := by
  rw [inv.identity_view bound inside]
  have bits := loaderEntry_bits (show r + 1 < 2 ^ 20 by omega)
  have bits' := loaderEntry_bits (show r + 2 < 2 ^ 20 by omega)
  obtain ⟨i, eq⟩ : ∃ i : Fin 512, i = Fin.ofNat 512 (v / 2 ^ 21) := ⟨_, rfl⟩
  have index : i.val = v % 2 ^ 48 / 2 ^ 21 := by
    rw [eq, Fin.val_ofNat]
    omega
  rw [← eq, identityWord]
  by_cases low : i.val < 4
  · have words : ∀ n < 4, present (identityEntry (0x200000 * n)) = true ∧
        large (identityEntry (0x200000 * n)) = true ∧
        writable (identityEntry (0x200000 * n)) = true ∧
        userBit (identityEntry (0x200000 * n)) = false ∧
        noExec (identityEntry (0x200000 * n)) = false ∧
        hwFrame (identityEntry (0x200000 * n)) = 512 * n := by decide
    obtain ⟨there, size, write, user, exec, frame⟩ := words i low
    have place : 512 * i.val / 2 ^ 9 * 2 ^ 9 + v / 4096 % 2 ^ 9 = v % 2 ^ 48 / 4096 := by omega
    rw [if_pos low]
    simp only [effective, translate, there, size, frame, bits, bits', write, user, exec, place,
      Bool.and_true, Bool.or_false, if_true, Option.map_some, List.all_cons, List.all_nil,
      List.any_cons, List.any_nil, Option.some.injEq]
    constructor
    · intro same
      exact ⟨by omega, same.symm⟩
    · exact fun same => same.2.symm
  · rw [if_neg low]
    have none : effective v [loaderEntry (4096 * (r + 1)), loaderEntry (4096 * (r + 2)), 0] =
      none := rfl
    rw [none]
    constructor
    · intro same
      cases same
    · intro same
      omega

end Absent

/-- The stack's call apart, the calls are for pages of segments, and these pages lie between two
addresses. -/
def CallsWithin (stack lo hi : Nat) (ps : List Phdr) (adds : List Add) : Prop :=
  ∀ a ∈ adds, a = stackAdd stack ∨
    (∃ p ∈ ps, ∃ t, 4096 * t < p.memsz ∧ a.virt = p.vaddr + 4096 * t) ∧
      ∃ f, a.phys = 4096 * f ∧ lo ≤ 4096 * f ∧ 4096 * f + 4096 ≤ hi

section Within

variable {r k ms me stack lo hi : Nat} {m : Memory} {ps : List Phdr}

theorem CallsWithin.segment {adds : List Add} {p : Phdr} {base : Nat}
    (calls : CallsWithin stack lo hi ps adds) (member : p ∈ ps) (aligned : base % 4096 = 0)
    (room : p.memsz = 0 ∨ lo ≤ base ∧ base + p.memsz ≤ hi) :
    CallsWithin stack lo hi ps (adds ++ p.adds base) := by
  intro a inside
  rcases List.mem_append.mp inside with old | new
  · exact calls a old
  · obtain ⟨t, range, rfl⟩ := List.mem_map.mp new
    have short := List.mem_range'_1.mp range
    refine .inr ⟨⟨p, member, t, by omega, rfl⟩, base / 4096 + t, ?_, by omega, by omega⟩
    show base + 4096 * t = _
    omega

/- The loop of `loadSegments_spec`, for the calls alone. The cursor can wrap to 0 behind the last
segment that takes memory. -/
theorem loadSegments_calls (bound : r + 256 ≤ 2 ^ 20) (headers : Headers m ms me)
    (modOff : Clear ms me (4096 * r) (4096 * (r + 256))) {n i d base stop : Nat} {s : Loader}
    {adds : List Add} (inv : Mapped r k adds s) (kept : Kept m s.mem ms me)
    (count : i + d = ePhnum m ms) (enough : d < n)
    (ok : ∀ p ∈ segmentsFrom m ms i d, SegmentOk ms me p) (aligned : base % 4096 = 0)
    (space : base + total (segmentsFrom m ms i d) ≤ stop) (low : stop ≤ 2 ^ 32)
    (off : Clear base stop ms me) (off' : Clear base stop (4096 * r) (4096 * (r + 256)))
    (fits : Fits r k (total (segmentsFrom m ms i d) / 4096)
      (loadSegments ms n i (phdrAddr m ms i % 2 ^ 32) base s))
    (calls : CallsWithin stack lo hi ps adds) (part : segmentsFrom m ms i d ⊆ ps)
    (room : total (segmentsFrom m ms i d) = 0 ∨
      lo ≤ base ∧ base + total (segmentsFrom m ms i d) ≤ hi) :
    ∃ k' adds', Mapped r k' adds' (loadSegments ms n i (phdrAddr m ms i % 2 ^ 32) base s) ∧
      CallsWithin stack lo hi ps adds' := by
  induction d generalizing n i base stop s adds k with
  | zero =>
    obtain ⟨n, rfl⟩ := Nat.exists_eq_succ_of_ne_zero (Nat.ne_of_gt enough)
    rw [loadSegments_done headers kept (by omega)]
    exact ⟨k, adds, inv, calls⟩
  | succ d ih =>
    obtain ⟨n, rfl⟩ := Nat.exists_eq_succ_of_ne_zero (Nat.ne_of_gt (Nat.zero_lt_of_lt enough))
    have less : i < ePhnum m ms := by omega
    obtain ⟨addr, inside⟩ := headers.phdr_inside less
    have header := kept.phdr inside.1 inside.2
    rw [addr] at fits ⊢
    cases type : (phdrAt m (phdrAddr m ms i)).load with
    | false =>
      have rest : segmentsFrom m ms i (d + 1) = segmentsFrom m ms (i + 1) d := by
        simp [segmentsFrom, List.range'_succ, type]
      have run := loadSegments_skip headers kept less type n base
      rw [rest] at ok space fits part room
      rw [run] at fits ⊢
      exact ih inv kept (by omega) (by omega) ok aligned space low off off' fits calls part room
    | true =>
      have next := loadSegments_next headers kept less type n base
      obtain ⟨p, eq⟩ : ∃ p, p = phdrAt m (phdrAddr m ms i) := ⟨_, rfl⟩
      rw [← eq] at header type next
      have rest : segmentsFrom m ms i (d + 1) = p :: segmentsFrom m ms (i + 1) d := by
        simp [segmentsFrom, List.range'_succ, ← eq, type]
      have sum : total (p :: segmentsFrom m ms (i + 1) d) =
          p.memsz + total (segmentsFrom m ms (i + 1) d) := by simp [total]
      rw [rest] at ok space fits part room
      rw [sum] at space fits room
      have first := ok p List.mem_cons_self
      have pages := first.pages
      have here : Fits r k (p.memsz / 4096) (loadSegment ms (phdrAddr m ms i) base s) := by
        refine fits.imp (fun few => by omega) fun room => ?_
        rw [loadSegments, (kept.ehdr headers.header).1, if_pos less, header, type,
          if_pos rfl] at room
        exact Nat.le_trans (loadSegments_point_le _ _ _ _ _ _) room
      obtain ⟨⟨k', taken, inv'⟩, frame, -⟩ := loadSegment_spec inv bound first headers.fits
        header inside modOff (off.mono (Nat.le_refl _) (by omega))
        (off'.mono (Nat.le_refl _) (by omega)) here
      have kept' : Kept m (loadSegment ms (phdrAddr m ms i) base s).mem ms me := by
        intro x from_ms to_me
        rw [frame x (by rcases modOff with below | above <;> omega)
          (by rcases off with below | above <;> omega), kept x from_ms to_me]
      rw [next kept'] at fits ⊢
      obtain ⟨stop', space', low', off₁, off₂, -⟩ := cursor_wraps space low off off'
      exact ih inv' kept' (by omega) (by omega)
        (fun q inside => ok q (List.mem_cons_of_mem p inside)) (by omega) space' low' off₁ off₂
        (fits.imp (fun few => by omega) id)
        (calls.segment (part List.mem_cons_self) aligned (by omega))
        (fun q inside => part (List.mem_cons_of_mem p inside)) (by omega)

end Within

section Reach

variable {mem : Memory} {r stack ms me : Nat} {map : BootMap} {out : Loaded}

/- The run of the loop, as in `load_placed`. -/
theorem load_calls (bound : r + 256 ≤ 2 ^ 20) (headers : Headers mem ms me)
    (modOff : Clear ms me (4096 * r) (4096 * (r + 256)))
    (ok : ∀ p ∈ segments mem ms, SegmentOk ms me p) (apart : (segments mem ms).Pairwise Phdr.Off)
    (run : loadElf64Module map ms (bootTables mem (4096 * r) stack) = some out)
    (low : out.loadStart + spanSize mem ms ≤ 2 ^ 32)
    (off : Clear out.loadStart (out.loadStart + spanSize mem ms) ms me)
    (off' : Clear out.loadStart (out.loadStart + spanSize mem ms) (4096 * r) (4096 * (r + 256)))
    (room : out.loader.pageFreePoint ≤ 4096 * (r + 256)) :
    ∃ k adds, Mapped r k adds out.loader ∧
      CallsWithin stack out.loadStart (out.loadStart + total (segments mem ms)) (segments mem ms)
        adds := by
  obtain ⟨k, -, inv, kept⟩ := boot_mapped mem stack bound modOff
  generalize bootTables mem (4096 * r) stack = s at run inv kept
  obtain ⟨img, eq⟩ : ∃ img, img = loadSegments ms (2 ^ 16) 0 (firstPhdr s.mem ms)
    (findElf64PhysOrigin s.mem map (spanSize s.mem ms)) s := ⟨_, rfl⟩
  obtain ⟨loader, place⟩ : out.loader = img ∧
      out.loadStart = findElf64PhysOrigin s.mem map (spanSize s.mem ms) := by
    simp only [loadElf64Module, ← eq, Option.ite_none_right_eq_some, Option.some.injEq] at run
    rw [← run.2]
    exact ⟨rfl, rfl⟩
  have aligned := (findElf64PhysOrigin_place s.mem map (spanSize s.mem ms)).1
  have first : firstPhdr s.mem ms = phdrAddr mem ms 0 % 2 ^ 32 := by
    rw [firstPhdr, kept.phoff headers.header, phdrAddr, Nat.zero_mul, Nat.add_zero]
  have sum := total_le_spanSize headers ok apart
  have count : ePhnum mem ms < 2 ^ 16 := read_lt mem (ms + 56) 2
  rw [← place] at eq aligned
  rw [first] at eq
  rw [loader, eq] at room ⊢
  exact loadSegments_calls bound headers modOff inv kept (Nat.zero_add _) count ok aligned
    (Nat.add_le_add_left sum out.loadStart) low off off' (.inr room)
    (fun a inside => .inl (List.mem_singleton.mp inside)) (fun _ inside => inside)
    (.inr ⟨Nat.le_refl _, Nat.le_refl _⟩)

theorem stackLeaf_frame {stack : Nat} (low : stack < 2 ^ 32) :
    present (loaderLeaf stack false) = true ∧ hwFrame (loaderLeaf stack false) = stack / 4096 := by
  rw [loaderLeaf, if_neg (by decide)]
  refine ⟨by simp [present, pagePresent], ?_⟩
  rw [hwFrame_or (by decide), hwFrame_or (by decide), hwFrame_or (by decide), hwFrame,
    BitVec.toNat_ofNat]
  omega

theorem load_end (bound : r + 256 ≤ 2 ^ 20) (headers : Headers mem ms me)
    (modOff : Clear ms me (4096 * r) (4096 * (r + 256)))
    (run : loadElf64Module map ms (bootTables mem (4096 * r) stack) = some out) :
    out.loadEnd = (out.loadStart + spanSize mem ms) % 2 ^ 32 := by
  obtain ⟨-, -, -, kept⟩ := boot_mapped mem stack bound modOff
  simp only [loadElf64Module, Option.ite_none_right_eq_some, Option.some.injEq] at run
  rw [← run.2, kept.spanSize headers]

theorem view_page {m : Mem} {w v : Nat} (same : pageOf v = pageOf w) :
    view m r v = view m r w := by
  have slots : path v = path w := (path_eq_iff v w).mpr same
  have translates : ∀ t, translate v t = translate w t := by
    intro t
    unfold pageOf at same
    have nine : v / 4096 % 2 ^ 9 = w / 4096 % 2 ^ 9 := by omega
    have eighteen : v / 4096 % 2 ^ 18 = w / 4096 % 2 ^ 18 := by omega
    unfold translate
    rw [nine, eighteen]
  rw [view, view, slots, effective, effective, translates]

end Reach

/-- What the kernel finds mapped when it is entered, and nothing more: the first 8 MiB at their own
addresses, the page in which the stack begins, and the pages of its segments. The latter lie
between the two addresses that it is told. -/
theorem loader_maps_exactly (mem : Memory) (r stack : Nat) (bound : r + 256 ≤ 2 ^ 20)
    (small : stack < 2 ^ 32) (map : BootMap) (ms me : Nat) (headers : Headers mem ms me)
    (modOff : Clear ms me (4096 * r) (4096 * r + 0x100000))
    (ok : ∀ p ∈ segments mem ms, SegmentOk ms me p) (apart : (segments mem ms).Pairwise Phdr.Off)
    (out : Loaded) (run : loadElf64Module map ms (bootTables mem (4096 * r) stack) = some out)
    (low : out.loadStart + spanSize mem ms < 2 ^ 32)
    (off : Clear out.loadStart (out.loadStart + spanSize mem ms) ms me)
    (off' : Clear out.loadStart (out.loadStart + spanSize mem ms) (4096 * r) (4096 * r + 0x100000))
    (room : out.loader.pageFreePoint ≤ 4096 * r + 0x100000) (v : Nat) :
    (v % 2 ^ 48 < 0x800000 →
      view (frames out.loader.mem) r v = some ⟨v % 2 ^ 48 / 4096, true, false, false⟩) ∧
    (pageOf v = pageOf stackVirt →
      ∃ x, view (frames out.loader.mem) r v = some x ∧ x.frame = stack / 4096) ∧
    (∀ p ∈ segments mem ms, ∀ j < p.memsz, pageOf v = pageOf (p.vaddr + j) →
      ∃ x, view (frames out.loader.mem) r v = some x ∧ out.loadStart ≤ 4096 * x.frame ∧
        4096 * x.frame + 4096 ≤ out.loadEnd) ∧
    (0x800000 ≤ v % 2 ^ 48 → pageOf v ≠ pageOf stackVirt →
      (∀ p ∈ segments mem ms, ∀ j < p.memsz, pageOf v ≠ pageOf (p.vaddr + j)) →
        view (frames out.loader.mem) r v = none) := by
  rw [show 4096 * r + 0x100000 = 4096 * (r + 256) by omega] at modOff off' room
  obtain ⟨places, placed⟩ := load_placed bound headers modOff ok apart run (by omega) off off'
    (.inr room)
  obtain ⟨k, adds, inv, calls⟩ := load_calls bound headers modOff ok apart run (by omega) off off'
    room
  have sum := total_le_spanSize headers ok apart
  have top : out.loadEnd = out.loadStart + spanSize mem ms := by
    rw [load_end bound headers modOff run, Nat.mod_eq_of_lt low]
  refine ⟨fun inside => ?_, fun page => ?_, fun p member j short page => ?_,
    fun high noStack noSegment => ?_⟩
  · exact (inv.identity_iff bound (by omega) _).mpr ⟨inside, rfl⟩
  · obtain ⟨there, frame⟩ := stackLeaf_frame small
    rw [placed.stack_view ok page, leafView, if_pos there]
    exact ⟨_, rfl, frame⟩
  · have okay := ok p member
    have high := okay.high
    have below := okay.below
    obtain ⟨x, mapped, -, -⟩ := placed.segment_view ok apart member short
    obtain ⟨a, inside, same, leaf⟩ := inv.view_added (by omega) mapped
    refine ⟨x, (view_page page).trans mapped, ?_⟩
    rcases calls a inside with rfl | ⟨-, f, phys, least, most⟩
    · exact absurd same.symm (pageOf_segment okay short).2
    · obtain ⟨there, -, -, -, frame⟩ := loaderLeaf_bits (show f < 2 ^ 20 by omega) a.exec
      rw [phys, leafView, if_pos there] at leaf
      obtain rfl := Option.some.inj leaf
      dsimp only
      rw [frame]
      omega
  · cases mapped : view (frames out.loader.mem) r v with
    | none => rfl
    | some x =>
      exfalso
      by_cases inside : v % 2 ^ 48 < 2 ^ 30
      · have := (inv.identity_iff bound inside x).mp mapped
        omega
      · obtain ⟨a, inside, same, -⟩ := inv.view_added (by omega) mapped
        rcases calls a inside with rfl | ⟨⟨p, member, t, short, virt⟩, -⟩
        · exact noStack same.symm
        · rw [virt] at same
          exact noSegment p member (4096 * t) short same.symm

/-- Memory as a bootloader leaves it: a multiboot structure at 0x9000 that tells of a module and of
16 MiB at 1 MiB, and the module at 0x610000. -/
def grubMemory : Memory := fun x =>
  BitVec.ofNat 8 (if x < 0x610000 then
    ([0x68, 0, 0, 0, 0, 0, 0, 0] ++ [3, 0, 0, 0, 16, 0, 0, 0, 0, 0, 0x61, 0, 0xb0, 0, 0x61, 0] ++
      [6, 0, 0, 0, 40, 0, 0, 0, 24, 0, 0, 0, 0, 0, 0, 0] ++
      [0, 0, 0x10, 0, 0, 0, 0, 0, 0, 0, 0, 1, 0, 0, 0, 0, 1, 0, 0, 0, 0, 0, 0, 0] ++
      [14, 0, 0, 0, 28, 0, 0, 0] ++
      [0x52, 0x53, 0x44, 0x20, 0x50, 0x54, 0x52, 0x20, 209, 0, 0, 0, 0, 0, 0, 0, 0, 0x10, 0, 0] ++
      [0, 0, 0, 0] ++ [0, 0, 0, 0, 8, 0, 0, 0]).getD (x - 0x9000) 0
    else tinyModule.getD (x - 0x610000) 0)

section Grub

theorem grub_segments :
    segments grubMemory 0x610000 = [tinyData, tinyCode] := by decide

theorem grub_size : spanSize grubMemory 0x610000 = 0x2000 := by decide

theorem grub_headers : Headers grubMemory 0x610000 0x6100b0 := by
  refine ⟨by decide, by decide, fun i few => ?_⟩
  have two : ePhnum grubMemory 0x610000 = 2 := by decide
  have cases : i = 0 ∨ i = 1 := by omega
  rcases cases with rfl | rfl <;> decide

theorem grub_module : Clear 0x610000 0x6100b0 (4096 * 0x200) (4096 * (0x200 + 256)) :=
  .inr (by decide)

theorem grub_ok : ∀ p ∈ segments grubMemory 0x610000, SegmentOk 0x610000 0x6100b0 p := by
  rw [grub_segments]
  intro p inside
  simp only [List.mem_cons, List.not_mem_nil, or_false] at inside
  rcases inside with rfl | rfl
  · exact ⟨by decide, by decide, by decide, by decide, by decide, by decide, by decide⟩
  · exact ⟨by decide, by decide, by decide, by decide, by decide, by decide, by decide⟩

theorem grub_apart : (segments grubMemory 0x610000).Pairwise Phdr.Off := by
  rw [grub_segments]
  exact List.pairwise_pair.mpr tiny_off

theorem grub_loaded : ∃ out, loadElf64Module ⟨0x9028, 1, 0x6100b0⟩ 0x610000
    (bootTables grubMemory (4096 * 0x200) 0x100000) = some out ∧ out.loadStart = 0x611000 ∧
      out.loader.pageFreePoint ≤ 4096 * 0x200 + 0x100000 := by
  have mapOff : Clear 0x9028 (0x9028 + 20) (4096 * 0x200) (4096 * (0x200 + 256)) :=
    .inl (by decide)
  obtain ⟨-, -, -, kept⟩ := boot_mapped grubMemory 0x100000 (show 0x200 + 256 ≤ 2 ^ 20 by decide)
    grub_module
  obtain ⟨-, -, -, kept'⟩ := boot_mapped grubMemory 0x100000 (show 0x200 + 256 ≤ 2 ^ 20 by decide)
    mapOff
  have found : ∃ out, loadElf64Module ⟨0x9028, 1, 0x6100b0⟩ 0x610000
      (bootTables grubMemory (4096 * 0x200) 0x100000) = some out ∧ out.loadStart = 0x611000 := by
    generalize bootTables grubMemory (4096 * 0x200) 0x100000 = s at kept kept'
    have here : mmapOrigin grubMemory 0x6100b0 0x2000 0x9028 = some 0x611000 := by decide
    have accepted : headerOk grubMemory 0x610000 = true := by decide
    rw [← mmapOrigin_congr kept'] at here
    rw [← kept.headerOk grub_headers.header] at accepted
    refine ⟨_, loadElf64Module_accepts accepted, ?_⟩
    show findElf64PhysOrigin s.mem ⟨0x9028, 1, 0x6100b0⟩ (spanSize s.mem 0x610000) = 0x611000
    rw [kept.spanSize grub_headers, grub_size]
    exact findElf64PhysOrigin_first (by decide) here
  obtain ⟨out, run, start⟩ := found
  refine ⟨out, run, start, ?_⟩
  obtain ⟨places, placed⟩ := load_placed (by decide) grub_headers grub_module grub_ok grub_apart run
    (by rw [start, grub_size]; decide) (.inr (by rw [start]; decide))
    (.inr (by rw [start]; decide)) (.inl (by rw [grub_segments]; decide))
  obtain ⟨k, tables⟩ := placed.tables
  have space := tables.space
  rw [tables.point]
  omega

end Grub

theorem loader_maps_exactly_grub :
    ∃ out, loadElf64Module ⟨0x9028, 1, 0x6100b0⟩ 0x610000
        (bootTables grubMemory (4096 * 0x200) 0x100000) = some out ∧
      (∃ x, view (frames out.loader.mem) 0x200 0xffff800000000fff = some x ∧
        out.loadStart ≤ 4096 * x.frame) ∧
      (∃ x, view (frames out.loader.mem) 0x200 0xffff800000001000 = some x ∧
        out.loadStart ≤ 4096 * x.frame) ∧
      view (frames out.loader.mem) 0x200 0xffff800000002000 = none ∧
      view (frames out.loader.mem) 0x200 0x800000 = none := by
  obtain ⟨out, run, start, room⟩ := grub_loaded
  have maps := loader_maps_exactly grubMemory 0x200 0x100000 (by decide) (by decide) _ _ _
    grub_headers grub_module grub_ok grub_apart out run (by rw [start, grub_size]; decide)
    (.inr (by rw [start]; decide)) (.inr (by rw [start]; decide)) room
  rw [grub_segments] at maps
  -- an address behind the last page is of no segment
  have none : ∀ v, v = 0xffff800000002000 ∨ v = 0x800000 → ∀ p ∈ [tinyData, tinyCode],
      ∀ j < p.memsz, pageOf v ≠ pageOf (p.vaddr + j) := by
    intro v far p inside j short
    simp only [List.mem_cons, List.not_mem_nil, or_false] at inside
    rcases inside with rfl | rfl <;> simp only [tinyData, tinyCode] at short ⊢ <;>
      rcases far with rfl | rfl <;> unfold pageOf <;> omega
  refine ⟨out, run, ?_, ?_, ?_, ?_⟩
  · obtain ⟨-, -, kernel, -⟩ := maps 0xffff800000000fff
    obtain ⟨x, there, least, -⟩ := kernel tinyCode (by simp) 0 (by decide) (by decide)
    exact ⟨x, there, least⟩
  · obtain ⟨-, -, kernel, -⟩ := maps 0xffff800000001000
    obtain ⟨x, there, least, -⟩ := kernel tinyData (by simp) 0 (by decide) (by decide)
    exact ⟨x, there, least⟩
  · obtain ⟨-, -, -, other⟩ := maps 0xffff800000002000
    exact other (by decide) (by decide) (none _ (.inl rfl))
  · obtain ⟨-, -, -, other⟩ := maps 0x800000
    exact other (by decide) (by decide) (none _ (.inr rfl))

end Gapxos
