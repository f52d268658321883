import Gapxos.Lib.Runs
import Gapxos.Loader.Load

/-! What load_elf64_module does, one access after the other. Its loops read the headers anew in
every round, also after they have written to memory. -/
namespace Gapxos
open Bytes Runs

deriving instance DecidableEq for Add

inductive LoadEvent
  | read (a n : Nat)
  | zero (start len : Nat)
  | copy (dst src len : Nat)
  | page (call : Add)
deriving DecidableEq

def LoadEvent.run (s : Loader) : LoadEvent → Loader
  | .read _ _ => s
  | .zero start len => { s with mem := zeroMemory s.mem start len }
  | .copy dst src len => { s with mem := memcpy s.mem dst src len }
  | .page call => s.add call

/-- The bytes that are read from the module. -/
def LoadEvent.Reads : LoadEvent → Nat → Prop
  | .read a n, x => a ≤ x ∧ x < a + n
  | .copy _ src len, x => src ≤ x ∧ x < src + len
  | _, _ => False

/-- The bytes that zero_memory and memcpy write. -/
def LoadEvent.Writes : LoadEvent → Nat → Prop
  | .zero start len, x => start ≤ x ∧ x < start + len
  | .copy dst _ len, x => dst ≤ x ∧ x < dst + len
  | _, _ => False

/-- The call for page `t` of a segment at `base`, whatever its address is. -/
def Phdr.call (p : Phdr) (base t : Nat) : Add :=
  ⟨(p.vaddr + 4096 * t) % 2 ^ 64, base + 4096 * t, p.flags % 2 == 1⟩

def mapTrace (phdr physLocation : Nat) : Nat → Nat → Loader → List LoadEvent
  | 0, _, _ => [.read (phdr + 40) 8]
  | n + 1, page, s =>
    let p := phdrAt s.mem phdr
    .read (phdr + 40) 8 ::
      if 4096 * page < p.memsz then
        .read (phdr + 16) 8 :: .read (phdr + 4) 4 :: .page (p.call physLocation page) ::
          mapTrace phdr physLocation n (page + 1) (s.add (p.call physLocation page))
      else []

def segmentTrace (modStart phdr physLocation : Nat) (s : Loader) : List LoadEvent :=
  let p := phdrAt s.mem phdr
  let zero := .zero physLocation (p.memsz % 2 ^ 32)
  let cleared := LoadEvent.run s zero
  let copy := .copy physLocation ((modStart + p.offset) % 2 ^ 32)
    ((phdrAt cleared.mem phdr).filesz % 2 ^ 32)
  [.read (phdr + 8) 8, .read (phdr + 40) 8, zero, .read (phdr + 32) 8, copy] ++
    mapTrace phdr physLocation (2 ^ 19) 0 (LoadEvent.run cleared copy)

def passTrace (ehdr : Nat) : Nat → Nat → Nat → Nat → Loader → List LoadEvent
  | 0, _, _, _, _ => []
  | n + 1, i, phdr, physLocation, s =>
    .read (ehdr + 56) 2 ::
      if i < ePhnum s.mem ehdr then
        .read phdr 4 ::
          if (phdrAt s.mem phdr).load then
            let s' := loadSegment ehdr phdr physLocation s
            segmentTrace ehdr phdr physLocation s ++ .read (phdr + 40) 8 :: .read (ehdr + 54) 2 ::
              passTrace ehdr n (i + 1) ((phdr + ePhentsize s'.mem ehdr) % 2 ^ 32)
                ((physLocation + (phdrAt s'.mem phdr).memsz) % 2 ^ 32) s'
          else
            .read (ehdr + 54) 2 ::
              passTrace ehdr n (i + 1) ((phdr + ePhentsize s.mem ehdr) % 2 ^ 32) physLocation s
      else []

/-- Where the loops find a program header: the pointer is one of 32 bits. -/
def headerAddr (m : Memory) (ms i : Nat) : Nat := phdrAddr m ms i % 2 ^ 32

def tableFrom (m : Memory) (ms i d : Nat) : List (Nat × Phdr) :=
  (List.range' i d).map fun i => (headerAddr m ms i, phdrAt m (headerAddr m ms i))

def headerTable (m : Memory) (ms : Nat) : List (Nat × Phdr) := tableFrom m ms 0 (ePhnum m ms)

def loaded (table : List (Nat × Phdr)) : List Phdr := (table.map Prod.snd).filter Phdr.load

def spanTrace (ms : Nat) (h : Nat × Phdr) : List LoadEvent :=
  [.read (ms + 56) 2, .read h.1 4] ++
    (if h.2.load then [.read (h.1 + 16) 8, .read (h.1 + 40) 8] else []) ++ [.read (ms + 54) 2]

/-- The file header is read for the checks and for e_phoff, in the end for e_entry. -/
def checkTrace (ms : Nat) : List LoadEvent :=
  [.read ms 6, .read (ms + 7) 2, .read (ms + 16) 2, .read (ms + 32) 8]

def loadTrace (map : BootMap) (ms : Nat) (s : Loader) : List LoadEvent :=
  checkTrace ms ++ (headerTable s.mem ms).flatMap (spanTrace ms) ++
    passTrace ms (2 ^ 16) 0 (firstPhdr s.mem ms)
      (findElf64PhysOrigin s.mem map (spanSize s.mem ms)) s ++ [.read (ms + 24) 8]

section Run

theorem mapTrace_run (phdr base n t : Nat) (s : Loader) :
    (mapTrace phdr base n t s).foldl LoadEvent.run s = mapSegment phdr base n t s := by
  induction n generalizing t s with
  | zero => rfl
  | succ n ih =>
    rw [mapTrace, mapSegment, List.foldl_cons]
    split
    · exact ih (t + 1) _
    · rfl

theorem segmentTrace_run (ms phdr base : Nat) (s : Loader) :
    (segmentTrace ms phdr base s).foldl LoadEvent.run s = loadSegment ms phdr base s := by
  simp only [segmentTrace, loadSegment, List.foldl_append, List.foldl_cons, List.foldl_nil,
    LoadEvent.run, mapTrace_run]

theorem passTrace_run (ms n i phdr base : Nat) (s : Loader) :
    (passTrace ms n i phdr base s).foldl LoadEvent.run s = loadSegments ms n i phdr base s := by
  induction n generalizing i phdr base s with
  | zero => rfl
  | succ n ih =>
    rw [passTrace, loadSegments, List.foldl_cons]
    split
    · rw [List.foldl_cons]
      split
      · rw [List.foldl_append]
        show List.foldl LoadEvent.run ((segmentTrace ms phdr base s).foldl LoadEvent.run s) _ = _
        rw [segmentTrace_run]
        exact ih _ _ _ _
      · exact ih _ _ _ _
    · rfl

theorem reads_run {events : List LoadEvent} (reads : ∀ e ∈ events, ∃ a n, e = .read a n)
    (s : Loader) : events.foldl LoadEvent.run s = s := by
  induction events generalizing s with
  | nil => rfl
  | cons e events ih =>
    obtain ⟨now, later⟩ := List.forall_mem_cons.mp reads
    obtain ⟨a, n, rfl⟩ := now
    exact ih later s

theorem spanTrace_reads {ms : Nat} {h : Nat × Phdr} {e : LoadEvent} (inside : e ∈ spanTrace ms h) :
    ∃ a n, e = .read a n := by
  simp only [spanTrace] at inside
  split at inside <;>
    simp only [List.mem_append, List.mem_cons, List.not_mem_nil, or_false] at inside
  · rcases inside with ((rfl | rfl) | rfl | rfl) | rfl <;> exact ⟨_, _, rfl⟩
  · rcases inside with (rfl | rfl) | rfl <;> exact ⟨_, _, rfl⟩

theorem spanTrace_run (ms : Nat) (table : List (Nat × Phdr)) (s : Loader) :
    (table.flatMap (spanTrace ms)).foldl LoadEvent.run s = s := by
  refine reads_run (fun e inside => ?_) s
  obtain ⟨h, _, here⟩ := List.mem_flatMap.mp inside
  exact spanTrace_reads here

theorem loadTrace_run {map : BootMap} {ms : Nat} {s : Loader} {out : Loaded}
    (run : loadElf64Module map ms s = some out) :
    (loadTrace map ms s).foldl LoadEvent.run s = out.loader := by
  simp only [loadElf64Module, Option.ite_none_right_eq_some, Option.some.injEq] at run
  rw [← run.2, loadTrace, List.foldl_append, List.foldl_append, List.foldl_append]
  have span := spanTrace_run ms (headerTable s.mem ms) s
  show List.foldl LoadEvent.run ((passTrace _ _ _ _ _ _).foldl LoadEvent.run
    (((headerTable s.mem ms).flatMap (spanTrace ms)).foldl LoadEvent.run s)) _ = _
  rw [span, passTrace_run]
  rfl

end Run

/-- A header reads as it did; of one that is no segment only the type is read. -/
def SameHeader (p q : Phdr) : Prop := p.load = q.load ∧ (q.load = true → p = q)

structure HeadersStill (m : Memory) (ms : Nat) (s : Loader) : Prop where
  phnum : ePhnum s.mem ms = ePhnum m ms
  phentsize : ePhentsize s.mem ms = ePhentsize m ms
  phdr : ∀ i < ePhnum m ms,
    SameHeader (phdrAt s.mem (headerAddr m ms i)) (phdrAt m (headerAddr m ms i))

def LoadStill (map : BootMap) (ms : Nat) (s : Loader) : Prop :=
  Throughout LoadEvent.run (HeadersStill s.mem ms) s (loadTrace map ms s)

/- What is done for a segment with header `p` at `a`. -/
inductive SegmentDoes (ms a base : Nat) (p : Phdr) : LoadEvent → Prop
  | offset : SegmentDoes ms a base p (.read (a + 8) 8)
  | memsz : SegmentDoes ms a base p (.read (a + 40) 8)
  | zero : SegmentDoes ms a base p (.zero base (p.memsz % 2 ^ 32))
  | filesz : SegmentDoes ms a base p (.read (a + 32) 8)
  | copy : SegmentDoes ms a base p
      (.copy base ((ms + p.offset) % 2 ^ 32) (p.filesz % 2 ^ 32))
  | vaddr : 0 < p.memsz → SegmentDoes ms a base p (.read (a + 16) 8)
  | flags : 0 < p.memsz → SegmentDoes ms a base p (.read (a + 4) 4)
  | page {t : Nat} : t < 2 ^ 19 → 4096 * t < p.memsz →
      SegmentDoes ms a base p (.page (p.call base t))

inductive HeaderDoes (ms base : Nat) (h : Nat × Phdr) : LoadEvent → Prop
  | type : HeaderDoes ms base h (.read h.1 4)
  | size : HeaderDoes ms base h (.read (ms + 54) 2)
  | segment {e : LoadEvent} : h.2.load = true → SegmentDoes ms h.1 base h.2 e →
      HeaderDoes ms base h e

section Still

variable {m : Memory} {ms a base : Nat} {p : Phdr} {s : Loader} {e : LoadEvent}

theorem mapTrace_mem {n t : Nat}
    (still : Throughout LoadEvent.run (fun s => phdrAt s.mem a = p) s (mapTrace a base n t s)) :
    e ∈ mapTrace a base n t s ↔ e = .read (a + 40) 8 ∨ ∃ u, t ≤ u ∧ u < t + n ∧
      4096 * u < p.memsz ∧
        (e = .read (a + 16) 8 ∨ e = .read (a + 4) 4 ∨ e = .page (p.call base u)) := by
  induction n generalizing t s with
  | zero =>
    simp only [mapTrace, List.mem_singleton]
    exact ⟨.inl, fun h => h.elim id fun ⟨u, _, _, _⟩ => by omega⟩
  | succ n ih =>
    rw [mapTrace] at still ⊢
    have header := still.1
    rw [header] at still ⊢
    by_cases more : 4096 * t < p.memsz
    · rw [if_pos more] at still ⊢
      have rest : e ∈ mapTrace a base n (t + 1) (s.add (p.call base t)) ↔ _ :=
        ih still.2.2.2.2
      simp only [List.mem_cons, rest]
      constructor
      · rintro (one | one | one | one | one | ⟨u, low, high, less, one⟩)
        · exact .inl one
        · exact .inr ⟨t, Nat.le_refl t, by omega, more, .inl one⟩
        · exact .inr ⟨t, Nat.le_refl t, by omega, more, .inr (.inl one)⟩
        · exact .inr ⟨t, Nat.le_refl t, by omega, more, .inr (.inr one)⟩
        · exact .inl one
        · exact .inr ⟨u, by omega, by omega, less, one⟩
      · rintro (one | ⟨u, low, high, less, one⟩)
        · exact .inl one
        · by_cases here : u = t
          · subst here
            rcases one with one | one | one
            · exact .inr (.inl one)
            · exact .inr (.inr (.inl one))
            · exact .inr (.inr (.inr (.inl one)))
          · exact .inr (.inr (.inr (.inr (.inr ⟨u, by omega, by omega, less, one⟩))))
    · rw [if_neg more, List.mem_singleton]
      exact ⟨.inl, fun h => h.elim id fun ⟨u, _, _, _, _⟩ => by omega⟩

theorem segmentTrace_mem (header : phdrAt s.mem a = p)
    (still : Throughout LoadEvent.run (fun s => phdrAt s.mem a = p) s (segmentTrace ms a base s)) :
    e ∈ segmentTrace ms a base s ↔ SegmentDoes ms a base p e := by
  simp only [segmentTrace, header] at still ⊢
  obtain ⟨start, still⟩ := throughout_append.mp still
  have cleared := start.2.2.2.1
  simp only [LoadEvent.run] at cleared
  simp only [LoadEvent.run, cleared, List.foldl_cons, List.foldl_nil] at still ⊢
  rw [List.mem_append, mapTrace_mem still]
  simp only [List.mem_cons, List.not_mem_nil, or_false]
  constructor
  · rintro ((rfl | rfl | rfl | rfl | rfl) | rfl | ⟨u, _, few, less, rfl | rfl | rfl⟩)
    · exact .offset
    · exact .memsz
    · exact .zero
    · exact .filesz
    · exact .copy
    · exact .memsz
    · exact .vaddr (by omega)
    · exact .flags (by omega)
    · exact .page (by omega) less
  · intro does
    cases does with
    | offset => exact .inl (.inl rfl)
    | memsz => exact .inr (.inl rfl)
    | zero => exact .inl (.inr (.inr (.inl rfl)))
    | filesz => exact .inl (.inr (.inr (.inr (.inl rfl))))
    | copy => exact .inl (.inr (.inr (.inr (.inr rfl))))
    | vaddr some => exact .inr (.inr ⟨0, by omega, by omega, by omega, .inl rfl⟩)
    | flags some => exact .inr (.inr ⟨0, by omega, by omega, by omega, .inr (.inl rfl)⟩)
    | page few less => exact .inr (.inr ⟨_, by omega, by omega, less, .inr (.inr rfl)⟩)

theorem headerAddr_succ (m : Memory) (ms i : Nat) :
    (headerAddr m ms i + ePhentsize m ms) % 2 ^ 32 = headerAddr m ms (i + 1) := by
  rw [headerAddr, Nat.mod_add_mod, phdrAddr_succ, headerAddr]

theorem total_loaded_cons (h : Nat × Phdr) (before : List (Nat × Phdr)) :
    total (loaded (h :: before)) = (if h.2.load then h.2.memsz else 0) + total (loaded before) := by
  cases type : h.2.load <;> simp [loaded, total, type]

theorem tableFrom_succ (m : Memory) (ms i d : Nat) : tableFrom m ms i (d + 1) =
    (headerAddr m ms i, phdrAt m (headerAddr m ms i)) :: tableFrom m ms (i + 1) d := by
  rw [tableFrom, List.range'_succ, List.map_cons, tableFrom]

theorem passTrace_mem {n i d : Nat} (count : i + d = ePhnum m ms) (enough : d < n)
    (low : base < 2 ^ 32)
    (still : Throughout LoadEvent.run (HeadersStill m ms) s
      (passTrace ms n i (headerAddr m ms i) base s)) :
    e ∈ passTrace ms n i (headerAddr m ms i) base s ↔ e = .read (ms + 56) 2 ∨
      ∃ before h after, tableFrom m ms i d = before ++ h :: after ∧
        HeaderDoes ms ((base + total (loaded before)) % 2 ^ 32) h e := by
  induction d generalizing n i base s with
  | zero =>
    obtain ⟨n, rfl⟩ := Nat.exists_eq_succ_of_ne_zero (Nat.ne_of_gt enough)
    rw [passTrace] at still ⊢
    rw [still.1.phnum, if_neg (by omega)]
    simp [tableFrom]
  | succ d ih =>
    obtain ⟨n, rfl⟩ := Nat.exists_eq_succ_of_ne_zero (Nat.ne_of_gt (Nat.zero_lt_of_lt enough))
    have less : i < ePhnum m ms := by omega
    rw [passTrace] at still ⊢
    have now := still.1
    have same := now.phdr i less
    rw [now.phnum, if_pos less, same.1] at still ⊢
    rw [tableFrom_succ, exists_split_cons]
    simp only [total_loaded_cons]
    cases type : (phdrAt m (headerAddr m ms i)).load with
    | false =>
      simp only [type, Bool.false_eq_true, if_false, now.phentsize, headerAddr_succ] at still ⊢
      have rest := ih (s := s) (by omega) (by omega) low still.2.2.2
      simp only [List.mem_cons, rest, Nat.zero_add]
      constructor
      · rintro (one | rfl | rfl | one | later)
        · exact .inl one
        · exact .inr (.inl .type)
        · exact .inr (.inl .size)
        · exact .inl one
        · exact .inr (.inr later)
      · rintro (one | does | later)
        · exact .inl one
        · cases does with
          | type => exact .inr (.inl rfl)
          | size => exact .inr (.inr (.inl rfl))
          | segment load => exact absurd (type.symm.trans load) (by decide)
        · exact .inr (.inr (.inr (.inr later)))
    | true =>
      simp only [type, if_true] at still ⊢
      obtain ⟨segment, after⟩ := (throughout_append (s := s)).mp still.2.2
      rw [segmentTrace_run] at after
      have later := after.1
      rw [later.phentsize, (later.phdr i less).2 type, headerAddr_succ] at after ⊢
      have rest := ih (s := loadSegment ms (headerAddr m ms i) base s) (by omega) (by omega)
        (Nat.mod_lt _ (by decide)) after.2.2
      have here := segmentTrace_mem (e := e) (same.2 type)
        (segment.mono fun s still => (still.phdr i less).2 type)
      have place : (base + total (loaded [])) % 2 ^ 32 = base := Nat.mod_eq_of_lt low
      simp only [List.mem_cons, List.mem_append, rest, here, Nat.mod_add_mod, Nat.add_assoc, place]
      constructor
      · rintro (one | rfl | does | rfl | rfl | one | behind)
        · exact .inl one
        · exact .inr (.inl .type)
        · exact .inr (.inl (.segment type does))
        · exact .inr (.inl (.segment type .memsz))
        · exact .inr (.inl .size)
        · exact .inl one
        · exact .inr (.inr behind)
      · rintro (one | does | behind)
        · exact .inl one
        · cases does with
          | type => exact .inr (.inl rfl)
          | size => exact .inr (.inr (.inr (.inr (.inl rfl))))
          | segment _ does => exact .inr (.inr (.inl does))
        · exact .inr (.inr (.inr (.inr (.inr (.inr behind)))))

theorem loadTrace_mem {map : BootMap} (still : LoadStill map ms s) :
    e ∈ loadTrace map ms s ↔
      (e ∈ checkTrace ms ∨ e = .read (ms + 56) 2 ∨ e = .read (ms + 24) 8) ∨
      (∃ h ∈ headerTable s.mem ms, e ∈ spanTrace ms h) ∨
      ∃ before h after, headerTable s.mem ms = before ++ h :: after ∧
        HeaderDoes ms ((findElf64PhysOrigin s.mem map (spanSize s.mem ms) +
          total (loaded before)) % 2 ^ 32) h e := by
  have first : firstPhdr s.mem ms = headerAddr s.mem ms 0 := by
    rw [firstPhdr, headerAddr, phdrAddr, Nat.zero_mul, Nat.add_zero]
  have span := spanTrace_run ms (headerTable s.mem ms) s
  unfold LoadStill loadTrace at still
  rw [first] at still
  have body := (throughout_append.mp (throughout_append.mp still).1).2
  rw [List.foldl_append] at body
  have few : ePhnum s.mem ms < 2 ^ 16 := read_lt s.mem (ms + 56) 2
  have pass := passTrace_mem (e := e) (s := s) (Nat.zero_add _) few
    (findElf64PhysOrigin_place _ _ _).2 (span ▸ body)
  rw [loadTrace, first]
  simp only [List.mem_append, List.mem_flatMap, pass, List.mem_singleton]
  constructor
  · rintro (((check | span) | one | pass) | entry)
    · exact .inl (.inl check)
    · exact .inr (.inl span)
    · exact .inl (.inr (.inl one))
    · exact .inr (.inr pass)
    · exact .inl (.inr (.inr entry))
  · rintro ((check | one | entry) | span | pass)
    · exact .inl (.inl (.inl check))
    · exact .inl (.inr (.inl one))
    · exact .inr entry
    · exact .inl (.inl (.inr span))
    · exact .inl (.inr (.inr pass))

end Still

end Gapxos
