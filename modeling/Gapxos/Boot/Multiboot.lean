import Gapxos.Lib.Bytes

/-! The two walks over the tags of a Multiboot 2 structure: the loop of lmain in the loader
and interpret_multiboot in the kernel. Both also say which tags they visited. -/
namespace Gapxos
open Bytes

def tagType (mem : Memory) (mb : Nat) : Nat := read mem mb 4
def tagSize (mem : Memory) (mb : Nat) : Nat := read mem (mb + 4) 4

def padded (size : Nat) : Nat :=
  if size % 8 ≠ 0 then (size + (8 - size % 8)) % 2 ^ 32 else size

/-- No walk has more tags than there are addresses, or it never ends. -/
def tagBound : Nat := 2 ^ 64 + 1

/- What lmain keeps. mod_start and mod_end are unset at first. -/
structure LoaderTags where
  module : Option (Nat × Nat)
  memoryMap : Nat
  mmapEntryCount : Nat

def loaderTag (mem : Memory) (mbInfo : Nat) (info : LoaderTags) : Option LoaderTags :=
  if tagType mem mbInfo = 3 then
    some { info with module := some (read mem (mbInfo + 8) 4, read mem (mbInfo + 12) 4) }
  else if tagType mem mbInfo = 6 then
    let size := tagSize mem mbInfo
    let entrySize := read mem (mbInfo + 8) 4
    if entrySize = 0 then none
    else some { info with
      memoryMap := mbInfo + 16
      mmapEntryCount := (size + 2 ^ 32 - 16) % 2 ^ 32 / entrySize }
  else some info

def loaderLoop (mem : Memory) : Nat → Nat → LoaderTags → Option (List Nat × LoaderTags)
  | 0, _, _ => none
  | n + 1, mbInfo, info => do
    let info ← loaderTag mem mbInfo info
    let next := (mbInfo + 4 * (padded (tagSize mem mbInfo) / 4)) % 2 ^ 32
    if tagType mem next ≠ 0 then
      let (tags, info) ← loaderLoop mem n next info
      some (mbInfo :: tags, info)
    else some ([mbInfo], info)

/-- The loop of lmain; its globals are 0 at first. -/
def lmainTags (mem : Memory) (mbStructure : Nat) : Option (List Nat × LoaderTags) :=
  loaderLoop mem tagBound (mbStructure + 8) ⟨none, 0, 0⟩

structure MbInfo where
  count : Nat
  map : Nat
  version : Nat
  rsdp : Nat
  textPtr : Nat
  width : Nat
  height : Nat

def interpretTag (mem : Memory) (type size data : Nat) (info : MbInfo) : Option MbInfo :=
  if type = 6 then
    if read mem data 4 = 0 then none
    else some { info with count := size / read mem data 4, map := data + 8 }
  else if type = 8 then
    if mem (data + 21) = 2 then
      some { info with
        textPtr := read mem data 8
        width := read mem (data + 12) 4
        height := read mem (data + 16) 4 }
    else some info
  else if type = 14 then
    some (if info.version < 1 then { info with rsdp := data, version := 1 } else info)
  else if type = 15 then
    some (if info.version < 2 then { info with rsdp := data, version := 2 } else info)
  else some info

def interpretLoop (mem : Memory) : Nat → Nat → MbInfo → Option (List Nat × MbInfo)
  | 0, _, _ => none
  | n + 1, mb, info =>
    if tagType mem mb ≠ 0 then do
      let info ← interpretTag mem (tagType mem mb) (tagSize mem mb) (mb + 8) info
      let next := (mb + 4 * (padded (tagSize mem mb) / 4)) % 2 ^ 64
      let (tags, info) ← interpretLoop mem n next info
      some (mb :: tags, info)
    else some ([], info)

def interpretMultiboot (mem : Memory) (mb : Nat) : Option (List Nat × MbInfo) :=
  interpretLoop mem tagBound (mb + 8) ⟨0, 0, 0, 0, 0, 0, 0⟩

/-- A list of tags below 4 GiB, by their addresses, up to the one that ends it. Tags are
padded to 8 bytes, and a memory map is a whole number of entries. -/
def TagsAt (mem : Memory) : Nat → List Nat → Prop
  | a, [] => a + 8 ≤ 2 ^ 32 ∧ tagType mem a = 0
  | a, t :: tags => t = a ∧ tagType mem a ≠ 0 ∧ 8 ≤ tagSize mem a ∧ a + tagSize mem a ≤ 2 ^ 32 ∧
    (tagType mem a = 6 → 24 ≤ read mem (a + 8) 4 ∧
      ∃ n, tagSize mem a = 16 + n * read mem (a + 8) 4) ∧
    TagsAt mem (a + 8 * ((tagSize mem a + 7) / 8)) tags

/-- The last memory map of a list of tags. -/
def lastMap (mem : Memory) (tags : List Nat) : Option Nat :=
  (tags.filter fun a => tagType mem a = 6).getLast?

def mapAt (mem : Memory) (a : Nat) : Nat × Nat :=
  (a + 16, (tagSize mem a - 16) / read mem (a + 8) 4)

section Walk

variable {mem : Memory} {a t n : Nat} {tags : List Nat}

theorem TagsAt.below (list : TagsAt mem a tags) : a + 8 ≤ 2 ^ 32 := by
  cases tags with
  | nil => exact list.1
  | cons t tags =>
    obtain ⟨_, _, some, low, _⟩ := list
    omega

theorem TagsAt.next (list : TagsAt mem a (t :: tags)) :
    (a + 4 * (padded (tagSize mem a) / 4)) % 2 ^ 32 = a + 8 * ((tagSize mem a + 7) / 8) ∧
      (a + 4 * (padded (tagSize mem a) / 4)) % 2 ^ 64 = a + 8 * ((tagSize mem a + 7) / 8) := by
  obtain ⟨_, _, some, low, _, rest⟩ := list
  have below := rest.below
  have whole : 4 * (padded (tagSize mem a) / 4) = 8 * ((tagSize mem a + 7) / 8) := by
    unfold padded
    split <;> omega
  rw [whole]
  constructor <;> exact Nat.mod_eq_of_lt (by omega)

theorem lastMap_cons (mem : Memory) (t : Nat) (tags : List Nat) :
    lastMap mem (t :: tags) = (lastMap mem tags).or
      (if tagType mem t = 6 then some t else none) := by
  unfold lastMap
  by_cases map : tagType mem t = 6
  · rw [List.filter_cons_of_pos (by simpa using map), List.getLast?_cons, if_pos map]
    cases (tags.filter fun a => tagType mem a = 6).getLast? <;> rfl
  · rw [List.filter_cons_of_neg (by simpa using map), if_neg map, Option.or_none]

theorem loaderTag_map (list : TagsAt mem a (t :: tags)) (info : LoaderTags) :
    ∃ info', loaderTag mem a info = some info' ∧ (info'.memoryMap, info'.mmapEntryCount) =
      if tagType mem a = 6 then mapAt mem a else (info.memoryMap, info.mmapEntryCount) := by
  obtain ⟨_, _, _, low, map, _⟩ := list
  unfold loaderTag
  by_cases module : tagType mem a = 3
  · rw [if_pos module, if_neg (by omega)]
    exact ⟨_, rfl, rfl⟩
  · rw [if_neg module]
    by_cases found : tagType mem a = 6
    · obtain ⟨entry, count, size⟩ := map found
      rw [if_pos found, if_pos found, if_neg (by omega)]
      refine ⟨_, rfl, ?_⟩
      show (a + 16, (tagSize mem a + 2 ^ 32 - 16) % 2 ^ 32 / read mem (a + 8) 4) = mapAt mem a
      rw [show (tagSize mem a + 2 ^ 32 - 16) % 2 ^ 32 = tagSize mem a - 16 by omega, mapAt]
    · rw [if_neg found, if_neg found]
      exact ⟨info, rfl, rfl⟩

theorem interpretTag_map (list : TagsAt mem a (t :: tags)) (info : MbInfo) :
    ∃ info', interpretTag mem (tagType mem a) (tagSize mem a) (a + 8) info = some info' ∧
      (info'.map, info'.count) =
        if tagType mem a = 6 then mapAt mem a else (info.map, info.count) := by
  obtain ⟨_, _, _, low, map, _⟩ := list
  unfold interpretTag
  by_cases found : tagType mem a = 6
  · obtain ⟨entry, count, size⟩ := map found
    rw [if_pos found, if_pos found, if_neg (by omega)]
    refine ⟨_, rfl, ?_⟩
    have pos : 0 < read mem (a + 8) 4 := by omega
    have same : tagSize mem a / read mem (a + 8) 4 =
        (tagSize mem a - 16) / read mem (a + 8) 4 := by
      rw [size, Nat.add_sub_cancel_left, Nat.add_mul_div_right _ _ pos, Nat.mul_div_cancel _ pos,
        Nat.div_eq_of_lt (by omega), Nat.zero_add]
    show (a + 8 + 8, tagSize mem a / read mem (a + 8) 4) = mapAt mem a
    rw [same, mapAt]
  · rw [if_neg found, if_neg found]
    repeat' split
    all_goals exact ⟨_, rfl, rfl⟩

theorem or_getD {m : Option Nat} {f : Nat → Nat × Nat} {x : Nat × Nat} {c : Prop} [Decidable c] :
    ((m.or (if c then some a else none)).map f).getD x =
      (m.map f).getD (if c then f a else x) := by
  cases m with
  | some b => rfl
  | none => split <;> rfl

theorem loaderLoop_tags (list : TagsAt mem a (t :: tags)) (enough : tags.length < n)
    (info : LoaderTags) :
    ∃ info', loaderLoop mem n a info = some (t :: tags, info') ∧
      (info'.memoryMap, info'.mmapEntryCount) = ((lastMap mem (t :: tags)).map (mapAt mem)).getD
        (info.memoryMap, info.mmapEntryCount) := by
  induction tags generalizing a t n info with
  | nil =>
    obtain ⟨n, rfl⟩ := Nat.exists_eq_succ_of_ne_zero (Nat.ne_of_gt enough)
    obtain ⟨info', tag, map⟩ := loaderTag_map list info
    have next := list.next.1
    obtain ⟨rfl, _, _, _, _, last⟩ := list
    refine ⟨info', ?_, ?_⟩
    · simp only [loaderLoop, tag, Option.bind_eq_bind, Option.bind_some, next, last.2, ne_eq,
        not_true_eq_false, if_false]
    · rw [map, lastMap_cons, or_getD]
      rfl
  | cons u tags ih =>
    obtain ⟨n, rfl⟩ := Nat.exists_eq_succ_of_ne_zero (Nat.ne_of_gt (Nat.zero_lt_of_lt enough))
    obtain ⟨info₁, tag, map₁⟩ := loaderTag_map list info
    have next := list.next.1
    obtain ⟨rfl, _, _, _, _, rest⟩ := list
    obtain ⟨info', run, map⟩ := ih rest (by simpa using enough) info₁
    have more : tagType mem (t + 8 * ((tagSize mem t + 7) / 8)) ≠ 0 := rest.2.1
    refine ⟨info', ?_, ?_⟩
    · simp only [loaderLoop, tag, Option.bind_eq_bind, Option.bind_some, next, more, ne_eq,
        not_false_eq_true, if_true, run]
    · rw [map, map₁, lastMap_cons mem t, or_getD]

theorem interpretLoop_tags (list : TagsAt mem a tags) (enough : tags.length < n) (info : MbInfo) :
    ∃ info', interpretLoop mem n a info = some (tags, info') ∧
      (info'.map, info'.count) = ((lastMap mem tags).map (mapAt mem)).getD
        (info.map, info.count) := by
  induction tags generalizing a n info with
  | nil =>
    obtain ⟨n, rfl⟩ := Nat.exists_eq_succ_of_ne_zero (Nat.ne_of_gt enough)
    exact ⟨info, by simp [interpretLoop, list.2], rfl⟩
  | cons t tags ih =>
    obtain ⟨n, rfl⟩ := Nat.exists_eq_succ_of_ne_zero (Nat.ne_of_gt (Nat.zero_lt_of_lt enough))
    obtain ⟨info₁, tag, map₁⟩ := interpretTag_map list info
    have next := list.next.2
    obtain ⟨rfl, type, _, _, _, rest⟩ := list
    obtain ⟨info', run, map⟩ := ih rest (by simpa using enough) info₁
    refine ⟨info', ?_, ?_⟩
    · simp only [interpretLoop, type, tag, Option.bind_eq_bind, Option.bind_some, next, ne_eq,
        not_false_eq_true, if_true, run]
    · rw [map, map₁, lastMap_cons, or_getD]

theorem TagsAt.length_lt (list : TagsAt mem a tags) : tags.length < tagBound := by
  have count : ∀ tags a, TagsAt mem a tags → a + 8 * tags.length + 8 ≤ 2 ^ 32 := by
    intro tags
    induction tags with
    | nil => exact fun a list => list.1
    | cons t tags ih =>
      intro a list
      obtain ⟨_, _, some, _, _, rest⟩ := list
      have := ih _ rest
      rw [List.length_cons]
      omega
  have := count tags a list
  unfold tagBound
  omega

end Walk

theorem lastMap_entries {mem : Memory} {a m : Nat} {tags : List Nat} (list : TagsAt mem a tags)
    (found : lastMap mem tags = some m) :
    tagSize mem m = 16 + (mapAt mem m).2 * read mem (m + 8) 4 := by
  have inside := List.mem_of_getLast? found
  simp only [List.mem_filter, decide_eq_true_eq] at inside
  obtain ⟨inside, map⟩ := inside
  have whole : ∃ n, 24 ≤ read mem (m + 8) 4 ∧ tagSize mem m = 16 + n * read mem (m + 8) 4 := by
    clear found
    induction tags generalizing a with
    | nil => cases inside
    | cons t tags ih =>
      obtain ⟨rfl, _, _, _, entries, rest⟩ := list
      rcases List.mem_cons.mp inside with rfl | inside
      · obtain ⟨big, n, size⟩ := entries map
        exact ⟨n, big, size⟩
      · exact ih rest inside
  obtain ⟨n, big, size⟩ := whole
  rw [mapAt, size, Nat.add_sub_cancel_left, Nat.mul_div_cancel _ (by omega)]

theorem tag_walkers_agree (mem : Memory) (mb t : Nat) (tags : List Nat)
    (list : TagsAt mem (mb + 8) (t :: tags)) :
    ∃ l k, lmainTags mem mb = some (t :: tags, l) ∧
      interpretMultiboot mem mb = some (t :: tags, k) ∧
      l.memoryMap = k.map ∧ l.mmapEntryCount = k.count ∧
      ∀ m, lastMap mem (t :: tags) = some m → k.map = m + 16 ∧
        tagSize mem m = 16 + k.count * read mem (m + 8) 4 := by
  have short := list.length_lt
  rw [List.length_cons] at short
  obtain ⟨l, loader, map⟩ := loaderLoop_tags list (Nat.lt_of_succ_lt short) ⟨none, 0, 0⟩
  obtain ⟨k, kernel, map'⟩ := interpretLoop_tags list list.length_lt ⟨0, 0, 0, 0, 0, 0, 0⟩
  have same := map.trans map'.symm
  rw [Prod.mk.injEq] at same
  refine ⟨l, k, loader, kernel, same.1, same.2, fun m found => ?_⟩
  have entries := lastMap_entries list found
  rw [found, Option.map_some, Option.getD_some] at map'
  rw [← map'] at entries
  exact ⟨congrArg Prod.fst map', entries⟩

/-- A memory map of one entry between a tag of 10 bytes and the end. -/
def threeTags : Memory := fun x => BitVec.ofNat 8
  (([80, 0, 0, 0, 0, 0, 0, 0] ++ [1, 0, 0, 0, 10, 0, 0, 0, 0x61, 0, 0, 0, 0, 0, 0, 0] ++
    [6, 0, 0, 0, 40, 0, 0, 0, 24, 0, 0, 0, 0, 0, 0, 0] ++ [0, 0, 0, 0, 0, 0, 0, 0] ++
    [0, 0, 0, 1, 0, 0, 0, 0] ++ [1, 0, 0, 0, 0, 0, 0, 0] ++ [0, 0, 0, 0, 8, 0, 0, 0]).getD
      (x - 0x9000) 0)

theorem tag_walkers_agree_three :
    ∃ l k, lmainTags threeTags 0x9000 = some ([0x9008, 0x9018], l) ∧
      interpretMultiboot threeTags 0x9000 = some ([0x9008, 0x9018], k) ∧
      l.memoryMap = k.map ∧ l.mmapEntryCount = k.count ∧ k.map = 0x9028 := by
  have list : TagsAt threeTags (0x9000 + 8) [0x9008, 0x9018] := by
    refine ⟨rfl, by decide, by decide, by decide, fun no => absurd no (by decide), rfl, by decide,
      by decide, by decide, fun _ => ⟨by decide, 1, by decide⟩, by decide, by decide⟩
  obtain ⟨l, k, loader, kernel, map, count, last⟩ :=
    tag_walkers_agree threeTags 0x9000 0x9008 [0x9018] list
  exact ⟨l, k, loader, kernel, map, count, (last 0x9018 (by decide)).1⟩

end Gapxos
