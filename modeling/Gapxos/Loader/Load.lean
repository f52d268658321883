import Gapxos.Lib.Extents
import Gapxos.Loader.Agree
import Gapxos.Loader.Elf

/-! What is in memory and in the tables after load_elf64_module. The segments are placed one
behind the other, off the module and off the tables, so no step disturbs an earlier one. -/
namespace Gapxos
open Bytes Radix

/-- The call of add_page for page `t` of a segment that is placed at `base`. -/
def Phdr.add (p : Phdr) (base t : Nat) : Add :=
  ⟨p.vaddr + 4096 * t, base + 4096 * t, p.flags % 2 == 1⟩

def Phdr.adds (p : Phdr) (base : Nat) : List Add :=
  (List.range' 0 (p.memsz / 4096)).map (p.add base)

def phdrs (mem : Memory) (ehdr : Nat) : List Phdr :=
  (List.range' 0 (ePhnum mem ehdr)).map fun i =>
    phdrAt mem (ehdr + ePhoff mem ehdr + i * ePhentsize mem ehdr)

def segments (mem : Memory) (ehdr : Nat) : List Phdr := (phdrs mem ehdr).filter Phdr.load

/-- A module whose headers lie in it. -/
structure Headers (mem : Memory) (modStart modEnd : Nat) : Prop where
  fits : modEnd ≤ 2 ^ 32
  header : modStart + 64 ≤ modEnd
  phdrs : ∀ i < ePhnum mem modStart,
    modStart + ePhoff mem modStart + i * ePhentsize mem modStart + 56 ≤ modEnd

/-- A segment as the linker script arranges it, in the higher half and below the stack. -/
structure SegmentOk (modStart modEnd : Nat) (p : Phdr) : Prop where
  size : p.filesz ≤ p.memsz
  start : p.vaddr % 4096 = 0
  pages : p.memsz % 4096 = 0
  high : 0xffff800000000000 ≤ p.vaddr
  below : p.vaddr + p.memsz ≤ 0xfffffffffffff000
  short : p.memsz < 2 ^ 31
  file : modStart + p.offset + p.filesz ≤ modEnd

/-- Nothing in `[a, b)` lies in `[c, d)`. -/
def Clear (a b c d : Nat) : Prop := b ≤ c ∨ d ≤ a

theorem Clear.mono {a b a' b' c d : Nat} (clear : Clear a b c d) (low : a ≤ a') (high : b' ≤ b) :
    Clear a' b' c d :=
  clear.imp (Nat.le_trans high) fun above => Nat.le_trans above low

def Kept (m mem : Memory) (modStart modEnd : Nat) : Prop :=
  ∀ x, modStart ≤ x → x < modEnd → mem x = m x

section Reading

variable {m mem : Memory} {ms me a : Nat}

theorem phdrAt_congr (same : ∀ x, a ≤ x → x < a + 48 → mem x = m x) :
    phdrAt mem a = phdrAt m a := by
  have field : ∀ b n, a ≤ b → b + n ≤ a + 48 → read mem b n = read m b n := fun b n low high =>
    read_congr fun x from_b to_b => same x (by omega) (by omega)
  simp only [phdrAt, Phdr.mk.injEq]
  exact ⟨field _ _ (by omega) (by omega), field _ _ (by omega) (by omega),
    field _ _ (by omega) (by omega), field _ _ (by omega) (by omega),
    field _ _ (by omega) (by omega), field _ _ (by omega) (by omega)⟩

theorem Kept.ehdr (kept : Kept m mem ms me) (header : ms + 64 ≤ me) :
    ePhnum mem ms = ePhnum m ms ∧ ePhentsize mem ms = ePhentsize m ms := by
  have field : ∀ b n, ms ≤ b → b + n ≤ ms + 64 → read mem b n = read m b n := fun b n low high =>
    read_congr fun x from_b to_b => kept x (by omega) (by omega)
  exact ⟨field _ _ (by omega) (by omega), field _ _ (by omega) (by omega)⟩

theorem Kept.phoff (kept : Kept m mem ms me) (header : ms + 64 ≤ me) :
    ePhoff mem ms = ePhoff m ms :=
  read_congr fun x low high => kept x (by omega) (by omega)

theorem Kept.phdr (kept : Kept m mem ms me) (low : ms ≤ a) (high : a + 56 ≤ me) :
    phdrAt mem a = phdrAt m a :=
  phdrAt_congr fun x from_a to_a => kept x (by omega) (by omega)

end Reading

/-- The tables fit: three are left for each page, or it can be seen in the end. -/
def Fits (r k pages : Nat) (out : Loader) : Prop :=
  k + 3 * pages ≤ 256 ∨ out.pageFreePoint ≤ 4096 * (r + 256)

section Map

variable {r k ms me phdr base : Nat} {s : Loader} {adds : List Add} {p : Phdr}

theorem Mapped.taken {k' : Nat} {adds' : List Add} {a : Add} (inv : Mapped r k adds s)
    (inv' : Mapped r k' adds' (s.add a)) : k' ≤ k + 3 := by
  have more := (add_point_le s a).2
  rw [inv.point, inv'.point] at more
  omega

theorem mapSegment_point_le (phdr base n t : Nat) (s : Loader) :
    s.pageFreePoint ≤ (mapSegment phdr base n t s).pageFreePoint := by
  induction n generalizing t s with
  | zero => exact Nat.le_refl _
  | succ n ih =>
    rw [mapSegment]
    split
    · exact Nat.le_trans (add_point_le s ⟨_, _, _⟩).1 (ih _ _)
    · exact Nat.le_refl _

theorem mapSegment_spec (inv : Mapped r k adds s) (bound : r + 256 ≤ 2 ^ 20)
    (ok : SegmentOk ms me p) (header : phdrAt s.mem phdr = p)
    (off : Clear phdr (phdr + 56) (4096 * r) (4096 * (r + 256))) {n t d : Nat}
    (count : p.memsz = 4096 * (t + d)) (enough : d < n)
    (fits : Fits r k d (mapSegment phdr base n t s)) :
    (∃ k', k' ≤ k + 3 * d ∧
      Mapped r k' (adds ++ (List.range' t d).map (p.add base)) (mapSegment phdr base n t s)) ∧
      ∀ x, x < 4096 * r ∨ 4096 * (r + 256) ≤ x → (mapSegment phdr base n t s).mem x = s.mem x := by
  induction d generalizing n t s adds k with
  | zero =>
    obtain ⟨n, rfl⟩ := Nat.exists_eq_succ_of_ne_zero (Nat.ne_of_gt enough)
    rw [mapSegment, header, if_neg (by omega)]
    exact ⟨⟨k, by omega, by simpa using inv⟩, fun _ _ => rfl⟩
  | succ d ih =>
    obtain ⟨n, rfl⟩ := Nat.exists_eq_succ_of_ne_zero (Nat.ne_of_gt (Nat.zero_lt_of_lt enough))
    have low := ok.high
    have high := ok.below
    have virt : (p.vaddr + 4096 * t) % 2 ^ 64 = p.vaddr + 4096 * t := Nat.mod_eq_of_lt (by omega)
    have step : mapSegment phdr base (n + 1) t s =
        mapSegment phdr base n (t + 1) (s.add (p.add base t)) := by
      rw [mapSegment, header, if_pos (by omega), virt]
      rfl
    rw [step] at fits ⊢
    have room : (s.add (p.add base t)).pageFreePoint ≤ 4096 * (r + 256) := by
      rcases fits with few | room
      · have more := (add_point_le s (p.add base t)).2
        rw [inv.point] at more
        omega
      · exact Nat.le_trans (mapSegment_point_le _ _ _ _ _) room
    have outside : 2 ^ 30 ≤ (p.add base t).virt % 2 ^ 48 := by
      show 2 ^ 30 ≤ (p.vaddr + 4096 * t) % 2 ^ 48
      omega
    obtain ⟨⟨k', inv'⟩, frame⟩ := inv.add bound (path_off_identity outside) room
    have three := inv.taken inv'
    have header' : phdrAt (s.add (p.add base t)).mem phdr = p := by
      refine Eq.trans (phdrAt_congr fun x above under => frame x ?_) header
      rcases off with off | off <;> omega
    obtain ⟨⟨k'', taken, inv''⟩, frame'⟩ := ih inv' header' (by omega) (by omega)
      (fits.imp (fun few => by omega) id)
    refine ⟨⟨k'', by omega, ?_⟩, fun x out => (frame' x out).trans (frame x out)⟩
    rw [List.append_assoc, List.singleton_append] at inv''
    rw [List.range'_succ, List.map_cons]
    exact inv''

theorem loadSegment_point_le (ms phdr base : Nat) (s : Loader) :
    s.pageFreePoint ≤ (loadSegment ms phdr base s).pageFreePoint := by
  rw [loadSegment]
  refine Nat.le_trans (Nat.le_of_eq ?_) (mapSegment_point_le phdr base (2 ^ 19) 0 _)
  rfl

theorem loadSegment_spec (inv : Mapped r k adds s) (bound : r + 256 ≤ 2 ^ 20)
    (ok : SegmentOk ms me p) (low : me ≤ 2 ^ 32) (header : phdrAt s.mem phdr = p)
    (inside : ms ≤ phdr ∧ phdr + 56 ≤ me) (modOff : Clear ms me (4096 * r) (4096 * (r + 256)))
    (off : Clear base (base + p.memsz) ms me)
    (off' : Clear base (base + p.memsz) (4096 * r) (4096 * (r + 256)))
    (fits : Fits r k (p.memsz / 4096) (loadSegment ms phdr base s)) :
    (∃ k', k' ≤ k + 3 * (p.memsz / 4096) ∧
      Mapped r k' (adds ++ p.adds base) (loadSegment ms phdr base s)) ∧
    (∀ x, x < 4096 * r ∨ 4096 * (r + 256) ≤ x → x < base ∨ base + p.memsz ≤ x →
      (loadSegment ms phdr base s).mem x = s.mem x) ∧
    ∀ j < p.memsz, (loadSegment ms phdr base s).mem (base + j) =
      if j < p.filesz then s.mem (ms + p.offset + j) else 0 := by
  have short := ok.short
  have size := ok.size
  have file := ok.file
  have pages := ok.pages
  -- the memory after the segment was cleared, and after it was copied
  obtain ⟨mem₁, eq₁⟩ : ∃ mem₁, mem₁ = zeroMemory s.mem base p.memsz := ⟨_, rfl⟩
  obtain ⟨mem₂, eq₂⟩ : ∃ mem₂, mem₂ = memcpy mem₁ base (ms + p.offset) p.filesz := ⟨_, rfl⟩
  have zeroed : ∀ x, mem₁ x = if base ≤ x ∧ x < base + p.memsz then 0 else s.mem x := by
    intro x
    rw [eq₁, zeroMemory_apply]
  have copied : ∀ x, mem₂ x = if base ≤ x ∧ x < base + p.filesz
      then s.mem (ms + p.offset + (x - base)) else mem₁ x := by
    intro x
    by_cases empty : p.filesz = 0
    · rw [eq₂, empty, memcpy, if_neg (by omega)]
    · have apart : base + p.filesz ≤ ms + p.offset ∨ ms + p.offset + p.filesz ≤ base := by
        rcases off with below | above <;> omega
      rw [eq₂, memcpy_apply apart]
      split
      · rw [zeroed, if_neg (by rcases off with below | above <;> omega)]
      · rfl
  have kept : ∀ x, x < base ∨ base + p.memsz ≤ x → mem₂ x = s.mem x := by
    intro x out
    rw [copied, if_neg (by omega), zeroed, if_neg (by omega)]
  have moduleKept : ∀ x, ms ≤ x → x < me → mem₂ x = s.mem x ∧ mem₁ x = s.mem x := by
    intro x low high
    have out : x < base ∨ base + p.memsz ≤ x := by rcases off with below | above <;> omega
    exact ⟨kept x out, by rw [zeroed, if_neg (by omega)]⟩
  have header₁ : phdrAt mem₁ phdr = p := by
    rw [← header]
    exact phdrAt_congr fun x low high => (moduleKept x (by omega) (by omega)).2
  have header₂ : phdrAt mem₂ phdr = p := by
    rw [← header]
    exact phdrAt_congr fun x low high => (moduleKept x (by omega) (by omega)).1
  have run : loadSegment ms phdr base s =
      mapSegment phdr base (2 ^ 19) 0 { s with mem := mem₂ } := by
    have src : p.filesz = 0 ∨ (ms + p.offset) % 2 ^ 32 = ms + p.offset := by
      by_cases empty : p.filesz = 0
      · exact .inl empty
      · exact .inr (Nat.mod_eq_of_lt (by omega))
    have clear : zeroMemory s.mem base (p.memsz % 2 ^ 32) = mem₁ := by
      rw [Nat.mod_eq_of_lt (by omega), eq₁]
    have copy : memcpy mem₁ base ((ms + p.offset) % 2 ^ 32) (p.filesz % 2 ^ 32) = mem₂ := by
      rw [Nat.mod_eq_of_lt (show p.filesz < 2 ^ 32 by omega), eq₂]
      rcases src with empty | same
      · rw [empty, memcpy, memcpy]
      · rw [same]
    simp only [loadSegment, header, clear, header₁, copy]
  have inv₂ : Mapped r k adds { s with mem := mem₂ } := inv.congr bound fun x low high =>
    kept x (by rcases off' with below | above <;> omega)
  rw [run] at fits ⊢
  obtain ⟨mapped, frame⟩ := mapSegment_spec inv₂ bound ok header₂
    (by rcases modOff with below | above
        · exact .inl (by omega)
        · exact .inr (by omega))
    (t := 0) (d := p.memsz / 4096) (by omega) (by omega) fits
  refine ⟨mapped, fun x out out' => (frame x out).trans (kept x out'), fun j inside => ?_⟩
  have out : base + j < 4096 * r ∨ 4096 * (r + 256) ≤ base + j := by
    rcases off' with below | above <;> omega
  rw [frame _ out]
  show mem₂ (base + j) = _
  rw [copied]
  by_cases short : j < p.filesz
  · rw [if_pos (by omega), if_pos short, show base + j - base = j by omega]
  · rw [if_neg (by omega), if_neg short, zeroed, if_pos (by omega)]

end Map

section Loop

variable {r k ms me : Nat} {m : Memory}

theorem loadSegments_point_le (ms n i phdr base : Nat) (s : Loader) :
    s.pageFreePoint ≤ (loadSegments ms n i phdr base s).pageFreePoint := by
  induction n generalizing i phdr base s with
  | zero => exact Nat.le_refl _
  | succ n ih =>
    rw [loadSegments]
    split
    · split
      · exact Nat.le_trans (loadSegment_point_le ms phdr base s) (ih _ _ _ _)
      · exact ih _ _ _ _
    · exact Nat.le_refl _

def phdrAddr (m : Memory) (ms i : Nat) : Nat := ms + ePhoff m ms + i * ePhentsize m ms

def segmentsFrom (m : Memory) (ms i d : Nat) : List Phdr :=
  ((List.range' i d).map fun i => phdrAt m (phdrAddr m ms i)).filter Phdr.load

def total (ps : List Phdr) : Nat := (ps.map Phdr.memsz).sum

/-- Every segment has its place, is mapped there and has its bytes. -/
structure SegmentsAt (r : Nat) (m : Memory) (ms : Nat) (adds : List Add) (ps : List Phdr)
    (out : Loader) (places : List (Phdr × Nat)) : Prop where
  segs : places.map Prod.fst = ps
  place : ∀ q ∈ places, q.2 % 4096 = 0 ∧ q.2 + q.1.memsz ≤ 2 ^ 32
  tables : ∃ k, Mapped r k (adds ++ places.flatMap fun q => q.1.adds q.2) out
  bytes : ∀ q ∈ places, ∀ j < q.1.memsz,
    out.mem (q.2 + j) = if j < q.1.filesz then m (ms + q.1.offset + j) else 0

theorem SegmentsAt.cons {p : Phdr} {base : Nat} {adds : List Add} {ps : List Phdr} {out : Loader}
    {places : List (Phdr × Nat)} (placed : SegmentsAt r m ms (adds ++ p.adds base) ps out places)
    (aligned : base % 4096 = 0) (low : base + p.memsz ≤ 2 ^ 32)
    (bytes : ∀ j < p.memsz,
      out.mem (base + j) = if j < p.filesz then m (ms + p.offset + j) else 0) :
    SegmentsAt r m ms adds (p :: ps) out ((p, base) :: places) := by
  refine ⟨?_, ?_, ?_, ?_⟩
  · rw [List.map_cons, placed.segs]
  · intro q inside
    rcases List.mem_cons.mp inside with rfl | inside
    · exact ⟨aligned, low⟩
    · exact placed.place q inside
  · obtain ⟨k, tables⟩ := placed.tables
    rw [List.append_assoc] at tables
    exact ⟨k, by rw [List.flatMap_cons]; exact tables⟩
  · intro q inside
    rcases List.mem_cons.mp inside with rfl | inside
    · exact bytes
    · exact placed.bytes q inside

theorem Headers.phdr_inside (headers : Headers m ms me) {i : Nat} (less : i < ePhnum m ms) :
    phdrAddr m ms i % 2 ^ 32 = phdrAddr m ms i ∧ ms ≤ phdrAddr m ms i ∧
      phdrAddr m ms i + 56 ≤ me := by
  have here := headers.phdrs i less
  have top := headers.fits
  unfold phdrAddr
  exact ⟨Nat.mod_eq_of_lt (by omega), by omega, here⟩

theorem phdrAddr_succ (m : Memory) (ms i : Nat) :
    (phdrAddr m ms i + ePhentsize m ms) % 2 ^ 32 = phdrAddr m ms (i + 1) % 2 ^ 32 := by
  rw [phdrAddr, phdrAddr, Nat.add_mul, Nat.one_mul, Nat.add_assoc _ (i * _)]

theorem cursor_wraps {base size left stop a b c d : Nat} (space : base + (size + left) ≤ stop)
    (low : stop ≤ 2 ^ 32) (off : Clear base stop a b) (off' : Clear base stop c d) : ∃ stop',
      (base + size) % 2 ^ 32 + left ≤ stop' ∧ stop' ≤ 2 ^ 32 ∧
      Clear ((base + size) % 2 ^ 32) stop' a b ∧ Clear ((base + size) % 2 ^ 32) stop' c d ∧
      ∀ x, x < base + size ∨ stop ≤ x → x < (base + size) % 2 ^ 32 ∨ stop' ≤ x := by
  by_cases wrap : base + size = 2 ^ 32
  · rw [wrap, Nat.mod_self]
    exact ⟨0, by omega, by omega, .inl (by omega), .inl (by omega), fun x _ => .inr (by omega)⟩
  · rw [Nat.mod_eq_of_lt (by omega)]
    exact ⟨stop, by omega, low, off.mono (by omega) (Nat.le_refl _),
      off'.mono (by omega) (Nat.le_refl _), fun x out => out⟩

section Pass

variable {i : Nat} {s : Loader}

theorem loadSegments_done (headers : Headers m ms me) (kept : Kept m s.mem ms me)
    (last : ¬ i < ePhnum m ms) (n phdr base : Nat) :
    loadSegments ms (n + 1) i phdr base s = s := by
  rw [loadSegments, (kept.ehdr headers.header).1, if_neg last]

theorem loadSegments_skip (headers : Headers m ms me) (kept : Kept m s.mem ms me)
    (less : i < ePhnum m ms) (type : (phdrAt m (phdrAddr m ms i)).load = false) (n base : Nat) :
    loadSegments ms (n + 1) i (phdrAddr m ms i) base s =
      loadSegments ms n (i + 1) (phdrAddr m ms (i + 1) % 2 ^ 32) base s := by
  obtain ⟨_, inside, ends⟩ := headers.phdr_inside less
  obtain ⟨count, size⟩ := kept.ehdr headers.header
  rw [loadSegments, count, if_pos less, kept.phdr inside ends, type, if_neg (by decide), size,
    phdrAddr_succ]

theorem loadSegments_next (headers : Headers m ms me) (kept : Kept m s.mem ms me)
    (less : i < ePhnum m ms) (type : (phdrAt m (phdrAddr m ms i)).load = true) (n base : Nat)
    (kept' : Kept m (loadSegment ms (phdrAddr m ms i) base s).mem ms me) :
    loadSegments ms (n + 1) i (phdrAddr m ms i) base s =
      loadSegments ms n (i + 1) (phdrAddr m ms (i + 1) % 2 ^ 32)
        ((base + (phdrAt m (phdrAddr m ms i)).memsz) % 2 ^ 32)
        (loadSegment ms (phdrAddr m ms i) base s) := by
  obtain ⟨_, inside, ends⟩ := headers.phdr_inside less
  rw [loadSegments, (kept.ehdr headers.header).1, if_pos less, kept.phdr inside ends, type,
    if_pos rfl]
  simp only [kept'.phdr inside ends, (kept'.ehdr headers.header).2, phdrAddr_succ]

end Pass

theorem loadSegments_spec (bound : r + 256 ≤ 2 ^ 20) (headers : Headers m ms me)
    (modOff : Clear ms me (4096 * r) (4096 * (r + 256))) {n i d base stop : Nat} {s : Loader}
    {adds : List Add} (inv : Mapped r k adds s) (kept : Kept m s.mem ms me)
    (count : i + d = ePhnum m ms) (enough : d < n)
    (ok : ∀ p ∈ segmentsFrom m ms i d, SegmentOk ms me p) (aligned : base % 4096 = 0)
    (space : base + total (segmentsFrom m ms i d) ≤ stop) (low : stop ≤ 2 ^ 32)
    (off : Clear base stop ms me) (off' : Clear base stop (4096 * r) (4096 * (r + 256)))
    (fits : Fits r k (total (segmentsFrom m ms i d) / 4096)
      (loadSegments ms n i (phdrAddr m ms i % 2 ^ 32) base s)) :
    (∃ places, SegmentsAt r m ms adds (segmentsFrom m ms i d)
      (loadSegments ms n i (phdrAddr m ms i % 2 ^ 32) base s) places) ∧
    ∀ x, x < 4096 * r ∨ 4096 * (r + 256) ≤ x → x < base ∨ stop ≤ x →
      (loadSegments ms n i (phdrAddr m ms i % 2 ^ 32) base s).mem x = s.mem x := by
  induction d generalizing n i base stop s adds k with
  | zero =>
    obtain ⟨n, rfl⟩ := Nat.exists_eq_succ_of_ne_zero (Nat.ne_of_gt enough)
    rw [loadSegments_done headers kept (by omega)]
    exact ⟨⟨[], rfl, by simp, ⟨k, by simpa using inv⟩, by simp⟩, fun _ _ _ => rfl⟩
  | succ d ih =>
    obtain ⟨n, rfl⟩ := Nat.exists_eq_succ_of_ne_zero (Nat.ne_of_gt (Nat.zero_lt_of_lt enough))
    have less : i < ePhnum m ms := by omega
    obtain ⟨addr, inside⟩ := headers.phdr_inside less
    have header := kept.phdr inside.1 inside.2
    rw [addr] at fits ⊢
    cases type : (phdrAt m (phdrAddr m ms i)).load with
    | false =>
      have rest : segmentsFrom m ms i (d + 1) = segmentsFrom m ms (i + 1) d := by
        simp [segmentsFrom, List.range'_succ, type]
      have run := loadSegments_skip headers kept less type n base
      rw [rest] at ok space fits ⊢
      rw [run] at fits ⊢
      exact ih inv kept (by omega) (by omega) ok aligned space low off off' fits
    | true =>
      have next := loadSegments_next headers kept less type n base
      obtain ⟨p, eq⟩ : ∃ p, p = phdrAt m (phdrAddr m ms i) := ⟨_, rfl⟩
      rw [← eq] at header type next
      have rest : segmentsFrom m ms i (d + 1) = p :: segmentsFrom m ms (i + 1) d := by
        simp [segmentsFrom, List.range'_succ, ← eq, type]
      have sum : total (p :: segmentsFrom m ms (i + 1) d) =
          p.memsz + total (segmentsFrom m ms (i + 1) d) := by simp [total]
      rw [rest] at ok space fits ⊢
      rw [sum] at space fits
      have first := ok p List.mem_cons_self
      have pages := first.pages
      have here : Fits r k (p.memsz / 4096) (loadSegment ms (phdrAddr m ms i) base s) := by
        refine fits.imp (fun few => by omega) fun room => ?_
        rw [loadSegments, (kept.ehdr headers.header).1, if_pos less, header, type,
          if_pos rfl] at room
        exact Nat.le_trans (loadSegments_point_le _ _ _ _ _ _) room
      obtain ⟨⟨k', taken, inv'⟩, frame, bytes⟩ := loadSegment_spec inv bound first headers.fits
        header inside modOff (off.mono (Nat.le_refl _) (by omega))
        (off'.mono (Nat.le_refl _) (by omega)) here
      have kept' : Kept m (loadSegment ms (phdrAddr m ms i) base s).mem ms me := by
        intro x from_ms to_me
        rw [frame x (by rcases modOff with below | above <;> omega)
          (by rcases off with below | above <;> omega), kept x from_ms to_me]
      rw [next kept'] at fits ⊢
      obtain ⟨stop', space', low', off₁, off₂, within⟩ := cursor_wraps space low off off'
      obtain ⟨⟨places, placed⟩, frame'⟩ := ih inv' kept' (by omega) (by omega)
        (fun q inside => ok q (List.mem_cons_of_mem p inside)) (by omega) space' low' off₁ off₂
        (fits.imp (fun few => by omega) id)
      refine ⟨⟨(p, base) :: places, placed.cons aligned (by omega) fun j short => ?_⟩,
        fun x out out' => ?_⟩
      · -- the later segments leave this one as it is
        rw [frame' _ (by rcases off' with below | above <;> omega) (within _ (.inl (by omega))),
          bytes j short]
        by_cases file : j < p.filesz
        · have := first.file
          rw [if_pos file, if_pos file, kept _ (by omega) (by omega)]
        · rw [if_neg file, if_neg file]
      · rw [frame' x out (within x (by omega)), frame x out (by omega)]

end Loop

section Place

variable {m : Memory} {ms me : Nat}

theorem pageAlign_aligned (range : Nat × Nat) : (pageAlign range).1 % 4096 = 0 := by
  simp only [pageAlign]
  split
  · show (range.1 + (0x1000 - range.1 % 0x1000)) % 2 ^ 64 % 4096 = 0
    omega
  · omega

theorem mmapOrigin_place {minAddr size entry base : Nat}
    (found : mmapOrigin m minAddr size entry = some base) : base % 4096 = 0 ∧ base < 2 ^ 32 := by
  have place : ∀ range : Nat × Nat,
      (if size ≤ (pageAlign range).2 then some ((pageAlign range).1 % 2 ^ 32) else none) =
        some base → base % 4096 = 0 ∧ base < 2 ^ 32 := by
    intro range fits
    split at fits
    · rw [← Option.some.inj fits, Nat.mod_mod_of_dvd _ (by decide)]
      exact ⟨pageAlign_aligned range, Nat.mod_lt _ (Nat.two_pow_pos 32)⟩
    · cases fits
  simp only [mmapOrigin] at found
  split at found
  · split at found
    · cases found
    · exact place _ found
  · cases found

theorem mmapOrigin_congr {mem : Memory} {entry : Nat} (kept : Kept m mem entry (entry + 20))
    (minAddr size : Nat) : mmapOrigin mem minAddr size entry = mmapOrigin m minAddr size entry := by
  have field : ∀ b n, entry ≤ b → b + n ≤ entry + 20 → read mem b n = read m b n :=
    fun b n low high => read_congr fun x from_b to_b => kept x (by omega) (by omega)
  simp only [mmapOrigin, field entry 8 (by omega) (by omega),
    field (entry + 8) 8 (by omega) (by omega), field (entry + 16) 4 (by omega) (by omega)]

theorem findElf64PhysOrigin_place (m : Memory) (map : BootMap) (size : Nat) :
    findElf64PhysOrigin m map size % 4096 = 0 ∧ findElf64PhysOrigin m map size < 2 ^ 32 := by
  unfold findElf64PhysOrigin
  cases found : (List.range map.mmapEntryCount).findSome? fun i =>
      mmapOrigin m map.minElf64Addr size (map.memoryMap + 24 * i) with
  | none => exact ⟨rfl, Nat.two_pow_pos 32⟩
  | some base =>
    obtain ⟨i, _, here⟩ := List.exists_of_findSome?_eq_some found
    exact mmapOrigin_place here

theorem findElf64PhysOrigin_first {map : BootMap} {size base : Nat} (count : 0 < map.mmapEntryCount)
    (first : mmapOrigin m map.minElf64Addr size map.memoryMap = some base) :
    findElf64PhysOrigin m map size = base := by
  obtain ⟨n, eq⟩ := Nat.exists_eq_succ_of_ne_zero (Nat.ne_of_gt count)
  rw [findElf64PhysOrigin, eq, List.range_succ_eq_map, List.findSome?_cons, Nat.mul_zero,
    Nat.add_zero, first]
  rfl

theorem widen_bounds {ps : List Phdr} (fits : ∀ p ∈ ps, p.load = true → p.vaddr + p.memsz < 2 ^ 64)
    (span : Nat × Nat) :
    (ps.foldl widen span).1 ≤ span.1 ∧ span.2 ≤ (ps.foldl widen span).2 ∧
    ((ps.foldl widen span).2 = span.2 ∨ (ps.foldl widen span).2 < 2 ^ 64) ∧
    ∀ p ∈ ps, p.load = true →
      (ps.foldl widen span).1 ≤ p.vaddr ∧ p.vaddr + p.memsz ≤ (ps.foldl widen span).2 := by
  induction ps generalizing span with
  | nil => simp
  | cons p ps ih =>
    obtain ⟨low, high, top, all⟩ := ih (fun q inside => fits q (List.mem_cons_of_mem p inside))
      (widen span p)
    rw [List.foldl_cons]
    cases type : p.load with
    | false =>
      have same : widen span p = span := by simp [widen, type]
      rw [same] at low high top all ⊢
      refine ⟨low, high, top, fun q inside => ?_⟩
      rcases List.mem_cons.mp inside with rfl | inside
      · rw [type]
        exact fun no => absurd no (by decide)
      · exact all q inside
    | true =>
      have stop := fits p List.mem_cons_self type
      have one : (widen span p).1 ≤ span.1 ∧ (widen span p).1 ≤ p.vaddr := by
        simp only [widen, type, if_true]
        split <;> omega
      have two : span.2 ≤ (widen span p).2 ∧ p.vaddr + p.memsz ≤ (widen span p).2 ∧
          ((widen span p).2 = span.2 ∨ (widen span p).2 < 2 ^ 64) := by
        simp only [widen, type, if_true, Nat.mod_eq_of_lt stop]
        split <;> omega
      refine ⟨by omega, by omega, by omega, fun q inside load => ?_⟩
      rcases List.mem_cons.mp inside with rfl | inside
      · omega
      · exact all q inside load

/-- Two segments have no address in common. -/
def Phdr.Off (p q : Phdr) : Prop :=
  ∀ a, ¬ ((p.vaddr ≤ a ∧ a < p.vaddr + p.memsz) ∧ q.vaddr ≤ a ∧ a < q.vaddr + q.memsz)

theorem total_le_span {ps : List Phdr}
    (below : ∀ p ∈ ps.filter Phdr.load, p.vaddr + p.memsz < 2 ^ 64)
    (apart : (ps.filter Phdr.load).Pairwise Phdr.Off) :
    total (ps.filter Phdr.load) ≤ ((ps.foldl widen (2 ^ 64 - 1, 0)).2 + 2 ^ 64 -
      (ps.foldl widen (2 ^ 64 - 1, 0)).1) % 2 ^ 64 := by
  have bounds := widen_bounds (fun p inside load => below p (List.mem_filter.mpr ⟨inside, load⟩))
    (2 ^ 64 - 1, 0)
  obtain ⟨lo, hi, eq⟩ : ∃ lo hi, ps.foldl widen (2 ^ 64 - 1, 0) = (lo, hi) := ⟨_, _, rfl⟩
  rw [eq] at bounds ⊢
  obtain ⟨low, _, top, all⟩ := bounds
  have sum : total (ps.filter Phdr.load) =
      (((ps.filter Phdr.load).map fun p => (p.vaddr, p.memsz)).map Prod.snd).sum := by
    simp [total, Function.comp_def]
  have inside : ∀ p ∈ ps.filter Phdr.load, lo ≤ p.vaddr ∧ p.vaddr + p.memsz ≤ hi := fun p inside =>
    all p (List.mem_filter.mp inside).1 (List.mem_filter.mp inside).2
  have short : (((ps.filter Phdr.load).map fun p => (p.vaddr, p.memsz)).map Prod.snd).sum ≤
      hi - lo :=
    Extents.sum_le_of_apart (List.pairwise_map.mpr apart) (List.forall_mem_map.mpr inside)
  rw [← sum] at short
  cases some : ps.filter Phdr.load with
  | nil => exact Nat.zero_le _
  | cons p rest =>
    have first := inside p (by rw [some]; exact List.mem_cons_self)
    rw [some] at short
    simp only at low top ⊢
    omega

theorem total_le_spanSize (headers : Headers m ms me)
    (ok : ∀ p ∈ segments m ms, SegmentOk ms me p) (apart : (segments m ms).Pairwise Phdr.Off) :
    total (segments m ms) ≤ spanSize m ms := by
  have fits := headers.fits
  have same : (List.range' 0 (ePhnum m ms)).foldl (fun span i =>
      widen span (phdrAt m ((firstPhdr m ms + i * ePhentsize m ms) % 2 ^ 32))) (2 ^ 64 - 1, 0) =
      (phdrs m ms).foldl widen (2 ^ 64 - 1, 0) := by
    rw [phdrs, List.foldl_map]
    refine List.foldl_ext _ _ _ fun span i inside => ?_
    have here := headers.phdrs i (by simpa using inside)
    rw [firstPhdr, Nat.mod_add_mod, Nat.mod_eq_of_lt (by omega)]
  rw [spanSize, same]
  refine total_le_span (fun p inside => ?_) apart
  have := (ok p inside).below
  omega

theorem Kept.headerOk {mem : Memory} (kept : Kept m mem ms me) (header : ms + 64 ≤ me) :
    headerOk mem ms = headerOk m ms := by
  have byte : ∀ i < 16, mem (ms + i) = m (ms + i) := fun i small =>
    kept _ (by omega) (by omega)
  have type : eType mem ms = eType m ms := read_congr fun x low high =>
    kept x (by omega) (by omega)
  have zero := byte 0 (by decide)
  rw [Nat.add_zero] at zero
  simp only [Gapxos.headerOk, zero, byte 1 (by decide), byte 2 (by decide), byte 3 (by decide),
    byte 4 (by decide), byte 5 (by decide), byte 7 (by decide), byte 8 (by decide), type]

theorem Kept.spanSize {mem : Memory} (kept : Kept m mem ms me) (headers : Headers m ms me) :
    spanSize mem ms = spanSize m ms := by
  have fields := kept.ehdr headers.header
  have fits := headers.fits
  have same : ∀ span : Nat × Nat, ∀ i ∈ List.range' 0 (ePhnum m ms),
      widen span (phdrAt mem ((firstPhdr m ms + i * ePhentsize m ms) % 2 ^ 32)) =
        widen span (phdrAt m ((firstPhdr m ms + i * ePhentsize m ms) % 2 ^ 32)) := by
    intro span i inside
    have here := headers.phdrs i (by simpa using inside)
    rw [firstPhdr, Nat.mod_add_mod, Nat.mod_eq_of_lt (by omega),
      kept.phdr (by omega) (by omega)]
  rw [Gapxos.spanSize, Gapxos.spanSize, firstPhdr, kept.phoff headers.header, fields.1, fields.2]
  rw [← firstPhdr, List.foldl_ext _ _ _ same]

theorem loadElf64Module_accepts {map : BootMap} {s : Loader} (accepted : headerOk s.mem ms = true) :
    loadElf64Module map ms s = some
      ⟨eEntry (loadSegments ms (2 ^ 16) 0 (firstPhdr s.mem ms)
        (findElf64PhysOrigin s.mem map (spanSize s.mem ms)) s).mem ms,
      loadSegments ms (2 ^ 16) 0 (firstPhdr s.mem ms)
        (findElf64PhysOrigin s.mem map (spanSize s.mem ms)) s,
      findElf64PhysOrigin s.mem map (spanSize s.mem ms),
      (findElf64PhysOrigin s.mem map (spanSize s.mem ms) + spanSize s.mem ms) % 2 ^ 32⟩ := by
  rw [loadElf64Module, if_pos accepted]

end Place

end Gapxos
