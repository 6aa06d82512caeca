import PagedKernel.Proofs.Host.Invariant

/-! Spaces as finite maps. What a space shows is a map from pages to frames with their
rights, and a set of pages that may be handed out; every call does to the space what an
insertion or a removal does to the map, for the same reasons or refused for the same. -/

namespace PagedKernel

structure Mapping where
  frame : Frame
  writable : Bool
  user : Bool
  borrowed : Bool

namespace Mapping

def entry (x : Mapping) : TableEntry :=
  .ofFrame x.frame (.leaf x.writable x.user x.borrowed)

def entryOf (x : Option Mapping) : TableEntry :=
  x.elim .zero entry

theorem isPresent_entryOf (x : Option Mapping) : (entryOf x).isPresent = x.isSome := by
  cases x <;> rfl

theorem entryOf_injective : Function.Injective entryOf := by
  intro x y h
  have hp := congrArg TableEntry.isPresent h
  rw [isPresent_entryOf, isPresent_entryOf] at hp
  match x, y with
  | none, none => rfl
  | some _, none => cases hp
  | none, some _ => cases hp
  | some ⟨⟨i⟩, w, u, b⟩, some ⟨⟨j⟩, w', u', b'⟩ =>
    cases h
    rfl

end Mapping

structure PageMap where
  mapping : Nat → Option Mapping
  available : Nat → Bool

namespace PageMap

def empty : PageMap where
  mapping _ := none
  available page := decide (page < pageCount) && decide (page ≠ 0)

def occupies (P : PageMap) (slot : Nat) : Bool :=
  (List.range 1024).any fun i => (P.mapping (1024 * slot + i)).isSome

def fill {α : Type} (f : Nat → α) (start count : Nat) (a : α) (page : Nat) : α :=
  if start ≤ page ∧ page < start + count then a else f page

def insert (P : PageMap) (page : Nat) (x : Mapping) : PageMap where
  mapping p := if p = page then some x else P.mapping p
  available p := if p = page then false else P.available p

/-- Maps a page. A frame is needed where none below the slot is mapped so far. -/
def assign (P : PageMap) (frameLeft : Bool) (va : VirtualAddress) (x : Mapping) :
    Except PagingError PageMap :=
  if va.pageNumber = 0 then .error .nullPage
  else if (P.mapping va.pageNumber).isSome then .error (.alreadyMapped va.page.base)
  else if P.occupies (va.pageNumber / 1024) || frameLeft then
    .ok (P.insert va.pageNumber x)
  else .error .outOfFrames

def unassign (P : PageMap) (start count : Nat) : Except PagingError PageMap :=
  if pageCount < start + count then .error (.outOfRange start count)
  else
    match (List.range' start count).find? fun page => (P.mapping page).isNone with
    | some page => .error (.notPresent page)
    | none => .ok ⟨fill P.mapping start count none, fill P.available start count true⟩

def reserveRange (P : PageMap) (start count : Nat) : Except PagingError PageMap :=
  if pageCount < start + count then .error (.outOfRange start count)
  else .ok ⟨P.mapping, fill P.available start count false⟩

def answer (P : PageMap) (frameLeft : Bool) : SpaceCall → Except PagingError PageMap
  | .assignOwned pa va writable user => P.assign frameLeft va ⟨pa.frame, writable, user, false⟩
  | .assignBorrowed pa va writable => P.assign frameLeft va ⟨pa.frame, writable, false, true⟩
  | .unassign start count => P.unassign start count
  | .reserveRange start count => P.reserveRange start count

end PageMap

/-- The lookups of a space are those of a map. -/
structure AddressSpace.Shows (s : AddressSpace) (ram : Ram) (P : PageMap) : Prop where
  finite : ∀ page, pageCount ≤ page → P.mapping page = none
  entry : ∀ va, s.entry ram va = .ok (Mapping.entryOf (P.mapping va.pageNumber))
  translate : ∀ va,
    match P.mapping va.pageNumber with
    | none => s.translate ram va = .ok none
    | some x => ∃ pa, x.frame.join va.offset = .ok pa ∧ s.translate ram va = .ok (some pa)
  linked : ∀ slot : EntryIndex, s.slotPresent ram slot.val = .ok (P.occupies slot.val)
  available : ∀ page, s.isAvailable page = P.available page

theorem AddressSpace.Shows.unique {s : AddressSpace} {ram : Ram} {P Q : PageMap}
    (h : s.Shows ram P) (h' : s.Shows ram Q) : P = Q := by
  obtain ⟨mapping, available⟩ := P
  obtain ⟨mapping', available'⟩ := Q
  have hmapping : mapping = mapping' := by
    funext page
    by_cases hp : page < pageCount
    · have he := (h.entry (Page.mk ⟨page, hp⟩).base).symm.trans (h'.entry _)
      rw [Page.base_pageNumber] at he
      exact Mapping.entryOf_injective (Except.ok.inj he)
    · exact (h.finite page (Nat.le_of_not_lt hp)).trans (h'.finite page (Nat.le_of_not_lt hp)).symm
  have havailable : available = available' :=
    funext fun page => (h.available page).symm.trans (h'.available page)
  rw [hmapping, havailable]

namespace Mmu

variable {v w : Mmu} {P : PageMap} {frameLeft : Bool}

structure Shows (v : Mmu) (P : PageMap) : Prop where
  leaf : ∀ page, v.leaf page = Mapping.entryOf (P.mapping page)
  available : ∀ page, v.space.isAvailable page = P.available page

theorem Shows.isPresent (h : v.Shows P) (page : Nat) :
    (v.leaf page).isPresent = (P.mapping page).isSome := by
  rw [h.leaf, Mapping.isPresent_entryOf]

theorem Shows.congr (h : v.Shows P) (hs : w.space = v.space) (hl : w.leaf = v.leaf) :
    w.Shows P where
  leaf page := hl ▸ h.leaf page
  available page := hs ▸ h.available page

theorem shows_empty (hl : ∀ page, v.leaf page = .zero)
    (hs : v.space = .fresh v.space.directory) : v.Shows .empty where
  leaf := hl
  available page := by rw [hs, AddressSpace.isAvailable_fresh, PageMap.empty]

theorem Shows.occupies (ht : v.Trimmed) (h : v.Shows P) (slot : Nat) :
    P.occupies slot = (v.table? slot).isSome := by
  rw [Bool.eq_iff_iff, PageMap.occupies, List.any_eq_true, Option.isSome_iff_exists]
  simp only [List.mem_range, ← h.isPresent]
  constructor
  · rintro ⟨i, hi, hp⟩
    obtain ⟨table, hs⟩ := table?_of_present hp
    exact ⟨table, by rwa [show (1024 * slot + i) / 1024 = slot by omega] at hs⟩
  · rintro ⟨table, hs⟩
    obtain ⟨i, hi⟩ := ht slot table hs
    exact ⟨i, mem_presentBelow_iff.mp hi⟩

theorem shows_iff (hv : v.Sound) (ht : v.Trimmed) :
    v.space.Shows v.machine.ram P ↔ v.Shows P := by
  constructor
  · intro h
    refine ⟨fun page => ?_, h.available⟩
    by_cases hp : page < pageCount
    · have he := h.entry (Page.mk ⟨page, hp⟩).base
      rw [entry_eq hv, Page.base_pageNumber] at he
      exact Except.ok.inj he
    · rw [h.finite page (Nat.le_of_not_lt hp)]
      exact hv.absent (Bool.eq_false_iff.mpr fun h' => hp (lt_of_present h'))
  · intro h
    refine ⟨fun page hp => ?_, fun va => ?_, fun va => ?_, fun slot => ?_, h.available⟩
    · rw [← Option.not_isSome_iff_eq_none, ← h.isPresent]
      exact fun h' => Nat.not_lt.mpr hp (lt_of_present h')
    · rw [entry_eq hv, h.leaf]
    · have hpresent := h.isPresent va.pageNumber
      have hleaf := h.leaf va.pageNumber
      cases hm : P.mapping va.pageNumber with
      | none =>
        rw [hm] at hpresent
        exact translate_of_absent hv va hpresent
      | some x =>
        rw [hm] at hpresent hleaf
        obtain ⟨pa, hj, -, htr⟩ := translate_of_present hv va hpresent
        rw [hleaf] at hj
        exact ⟨pa, hj, htr⟩
    · have hslot : v.space.slotPresent v.machine.ram slot.val =
          .ok (v.link slot.val).isPresent := by
        rw [AddressSpace.slotPresent, dif_pos slot.isLt,
          Ram.directory_of_installed hv.directory_installed, link_val]
        rfl
      rw [hslot, h.occupies ht, table?, DirectoryEntry.table?]
      split <;> simp_all

section Answer

variable {va : VirtualAddress} {x : Mapping} {c : SpaceCall} {e : PagingError}

theorem Shows.assigned (h : v.Shows P) (hw : w.Sound) (ht : v.Trimmed)
    (hleft : frameLeft = true ↔ ∃ f, v.available f) (ha : Assigned v w va.pageNumber x.entry) :
    ∃ P', P.assign frameLeft va x = .ok P' ∧ w.Shows P' := by
  have hnull : va.pageNumber ≠ 0 := by
    intro h0
    have hn := hw.null.2
    rw [ha.leaf, if_pos h0.symm] at hn
    cases hn
  have habsent : ¬ (P.mapping va.pageNumber).isSome = true := by
    rw [← h.isPresent, ha.absent]
    exact Bool.false_ne_true
  have hroom : (P.occupies (va.pageNumber / 1024) || frameLeft) = true := by
    rw [Bool.or_eq_true, h.occupies ht, hleft]
    cases hs : v.table? (va.pageNumber / 1024) with
    | none => exact .inr (ha.taken hs)
    | some table => exact .inl rfl
  refine ⟨P.insert va.pageNumber x, ?_, fun page => ?_, fun page => ?_⟩
  · rw [PageMap.assign, if_neg hnull, if_neg habsent, if_pos hroom]
  · simp only [ha.leaf, PageMap.insert]
    split
    · rfl
    · exact h.leaf page
  · simp only [ha.offered, PageMap.insert, h.available]

theorem Shows.assign_refused (h : v.Shows P) (ht : v.Trimmed)
    (hleft : frameLeft = true ↔ ∃ f, v.available f) (he : AssignRefused v va e) (x : Mapping) :
    P.assign frameLeft va x = .error e := by
  unfold PageMap.assign
  cases he with
  | nullPage hn => rw [if_pos hn]
  | alreadyMapped hn hp => rw [if_neg hn, if_pos (h.isPresent _ ▸ hp)]
  | outOfFrames hn hp hs ha =>
    have hnone : ¬ (P.mapping va.pageNumber).isSome = true := by
      rw [← h.isPresent, hp]
      exact Bool.false_ne_true
    have hroom : ¬ (P.occupies (va.pageNumber / 1024) || frameLeft) = true := by
      rw [Bool.or_eq_true, h.occupies ht, hs, hleft]
      rintro (hf | ⟨f, hf⟩)
      · cases hf
      · exact ha f hf
    rw [if_neg hn, if_neg hnone, if_neg hroom]

theorem Shows.find_absent {start count : Nat} {found : Option Nat} (h : v.Shows P)
    (hf : FirstAbsent v start count found) :
    ((List.range' start count).find? fun page => (P.mapping page).isNone) = found := by
  have hnone : ∀ page, (P.mapping page).isNone = !(v.leaf page).isPresent := by
    intro page
    rw [h.isPresent, Option.not_isSome]
  simp only [hnone]
  cases found with
  | none =>
    rw [List.find?_range'_eq_none]
    intro page hle hlt
    rw [hf page hle hlt]
    rfl
  | some page =>
    obtain ⟨hle, hlt, ha, hbefore⟩ := hf
    rw [List.find?_range'_eq_some]
    refine ⟨by rw [ha]; rfl, List.mem_range'_1.mpr ⟨hle, hlt⟩, fun q hq hqp => ?_⟩
    rw [hbefore q hq hqp]
    rfl

theorem Shows.effect (h : v.Shows P) (hv : v.Sound) (ht : v.Trimmed)
    (hleft : frameLeft = true ↔ ∃ f, v.available f) (he : c.Effect v w) :
    ∃ P', P.answer frameLeft c = .ok P' ∧ w.Shows P' := by
  have hw := he.sound hv
  cases c with
  | assignOwned => exact h.assigned hw ht hleft he
  | assignBorrowed => exact h.assigned hw ht hleft he
  | unassign start count =>
    have hend : ¬ pageCount < start + count := Nat.not_lt.mpr (Unassigned.inside he)
    refine ⟨⟨PageMap.fill P.mapping start count none, PageMap.fill P.available start count true⟩,
      ?_, fun page => ?_, fun page => ?_⟩
    · rw [PageMap.answer, PageMap.unassign, if_neg hend, h.find_absent (Unassigned.present he)]
    · simp only [(Unassigned.toCleared he).leaf, PageMap.fill]
      split
      · rfl
      · exact h.leaf page
    · simp only [Unassigned.offered he, PageMap.fill, h.available]
  | reserveRange start count =>
    obtain ⟨hle, rfl⟩ := he
    refine ⟨⟨P.mapping, PageMap.fill P.available start count false⟩, ?_, h.leaf, fun page => ?_⟩
    · rw [PageMap.answer, PageMap.reserveRange, if_neg (Nat.not_lt.mpr hle)]
    · simp only [isAvailable_fillFrom, PageMap.fill, h.available]

theorem Shows.refused (h : v.Shows P) (ht : v.Trimmed)
    (hleft : frameLeft = true ↔ ∃ f, v.available f) (he : c.Refused v e) :
    P.answer frameLeft c = .error e := by
  cases c with
  | assignOwned => exact h.assign_refused ht hleft he _
  | assignBorrowed => exact h.assign_refused ht hleft he _
  | unassign start count =>
    show P.unassign start count = _
    unfold PageMap.unassign
    cases he with
    | outOfRange hlt => rw [if_pos hlt]
    | notPresent hle hf => rw [if_neg (Nat.not_lt.mpr hle), h.find_absent hf]
  | reserveRange start count =>
    obtain ⟨hlt, rfl⟩ := he
    exact if_pos hlt

end Answer

end Mmu

namespace SpaceHost

variable {h h' : SpaceHost} {managed : Frame → Prop} {maps : List PageMap} {a : Action}

structure Shows (h : SpaceHost) (maps : List PageMap) : Prop where
  length : maps.length = h.spaces.length
  shows : ∀ {i s P}, h.space? i = some s → maps[i]? = some P → s.Shows h.machine.ram P

def frameLeft (h : SpaceHost) : Bool :=
  (List.finRange pageCount).any fun i => h.machine.pool.isAvailable ⟨i⟩

theorem frameLeft_iff : h.frameLeft = true ↔ ∃ f, h.machine.pool.isAvailable f = true := by
  simp only [frameLeft, List.any_eq_true, List.mem_finRange, true_and]
  exact ⟨fun ⟨i, hi⟩ => ⟨⟨i⟩, hi⟩, fun ⟨⟨i⟩, hi⟩ => ⟨i, hi⟩⟩

/-- What an action does to the maps. -/
def Action.answer (maps : List PageMap) (frameLeft : Bool) :
    Action → Except PagingError (List PageMap)
  | create => if frameLeft then .ok (maps ++ [.empty]) else .error .outOfFrames
  | call i c =>
    match maps[i]? with
    | none => .ok maps
    | some P => (P.answer frameLeft c).map (maps.set i ·)
  | deal _ => .ok maps
  | write .. => .ok maps

theorem Shows.unique {maps' : List PageMap} (hs : h.Shows maps) (hs' : h.Shows maps') :
    maps = maps' := by
  apply List.ext_getElem (hs.length.trans hs'.length.symm)
  intro i hi hi'
  have hlt : i < h.spaces.length := hs.length ▸ hi
  have hspace : h.space? i = some h.spaces[i] := List.getElem?_eq_getElem hlt
  exact (hs.shows hspace (List.getElem?_eq_getElem hi)).unique
    (hs'.shows hspace (List.getElem?_eq_getElem hi'))

theorem shows_iff (hi : Inv managed h) : h.Shows maps ↔ maps.length = h.spaces.length ∧
    ∀ {i s P}, h.space? i = some s → maps[i]? = some P → (Mmu.mk h.machine s).Shows P := by
  have hspace := fun {i s P} (hs : h.space? i = some s) =>
    Mmu.shows_iff (v := ⟨h.machine, s⟩) (P := P) (hi.custody.sound hs) (hi.custody.trimmed hs)
  exact ⟨fun hs => ⟨hs.length, fun hi hP => (hspace hi).mp (hs.shows hi hP)⟩,
    fun hs => ⟨hs.1, fun hi hP => (hspace hi).mpr (hs.2 hi hP)⟩⟩

theorem Outcome.shows_kept (hi : Inv managed h) (ha : a.Allowed h) (ho : Outcome managed h a h')
    (hs : h.Shows maps) {i : Nat} {s : AddressSpace} {P : PageMap} (hsi : h.space? i = some s)
    (hP : maps[i]? = some P) (hne : ∀ c, a ≠ .call i c) : (Mmu.mk h'.machine s).Shows P := by
  obtain ⟨-, -, hleaf⟩ := ho.view hi ha hsi hne
  exact (((shows_iff hi).mp hs).2 hsi hP).congr rfl hleaf

theorem Outcome.shows (hi : Inv managed h) (ha : a.Allowed h) (ho : Outcome managed h a h')
    (hs : h.Shows maps) : ∃ maps', a.answer maps h.frameLeft = .ok maps' ∧ h'.Shows maps' := by
  obtain ⟨managed', hi'⟩ := ho.keeps hi ha
  have hkept := fun {i s P} => @Outcome.shows_kept h h' managed maps a hi ha ho hs i s P
  obtain ⟨hlength, hshows⟩ := (shows_iff hi).mp hs
  simp only [shows_iff hi']
  cases ho with
  | @created t m hc hfresh =>
    have hleft : h.frameLeft = true := frameLeft_iff.mpr ⟨_, hc.taken⟩
    have hanswer : Action.create.answer maps h.frameLeft = .ok (maps ++ [.empty]) := by
      rw [Action.answer, if_pos hleft]
    refine ⟨maps ++ [.empty], hanswer, by simp [hlength], fun {i s P} hsi hP => ?_⟩
    rw [space?_append, Function.update_apply] at hsi
    split at hsi
    · next hlast =>
      cases hsi
      rw [hlast, ← hlength, List.getElem?_concat_length] at hP
      cases hP
      exact Mmu.shows_empty (Mmu.leaf_of_no_tables hc.tables) hfresh
    · have hlt : i < maps.length := hlength ▸ (List.getElem?_eq_some_iff.mp hsi).1
      rw [List.getElem?_append_left hlt] at hP
      exact hkept hsi hP nofun
  | @missing i c hn =>
    have hnone : maps[i]? = none := by
      rw [List.getElem?_eq_none_iff, hlength]
      exact List.getElem?_eq_none_iff.mp hn
    exact ⟨maps, by rw [Action.answer, hnone], hlength, hshows⟩
  | @called i c t w ht he =>
    obtain ⟨P, hP⟩ : ∃ P, maps[i]? = some P := by
      refine ⟨_, List.getElem?_eq_getElem (hlength ▸ (List.getElem?_eq_some_iff.mp ht).1)⟩
    obtain ⟨P', hanswer, hw⟩ := (hshows ht hP).effect (hi.custody.sound ht) (hi.custody.trimmed ht)
      frameLeft_iff he
    refine ⟨maps.set i P', by simp [Action.answer, hP, hanswer, Except.map], by simp [hlength], ?_⟩
    intro j s Q hsj hQ
    rw [space?_set ht, Function.update_apply] at hsj
    split at hsj
    · next hj =>
      cases hsj
      subst hj
      rw [List.getElem?_set_self (List.getElem?_eq_some_iff.mp hP).1] at hQ
      cases hQ
      exact hw
    · next hj =>
      rw [List.getElem?_set_ne (Ne.symm hj)] at hQ
      refine hkept hsj hQ ?_
      rintro _ ⟨⟩
      exact hj rfl
  | dealt hd =>
    refine ⟨maps, rfl, hlength.trans (congrArg _ hd.spaces).symm, fun hsi hP => ?_⟩
    exact hkept ((congrArg (·[_]?) hd.spaces).symm.trans hsi) hP nofun
  | written => exact ⟨maps, rfl, hlength, fun hsi hP => hkept hsi hP nofun⟩

theorem Shows.refused {e : PagingError} (hi : Inv managed h) (hs : h.Shows maps)
    (he : a.Refused h e) : a.answer maps h.frameLeft = .error e := by
  obtain ⟨hlength, hshows⟩ := (shows_iff hi).mp hs
  cases a with
  | create =>
    obtain ⟨rfl, hnone⟩ := he
    rw [Action.answer, if_neg]
    intro hleft
    obtain ⟨f, hf⟩ := frameLeft_iff.mp hleft
    exact Bool.eq_false_iff.mp (hnone f) hf
  | call i c =>
    obtain ⟨t, ht, he⟩ := he
    obtain ⟨P, hP⟩ : ∃ P, maps[i]? = some P :=
      ⟨_, List.getElem?_eq_getElem (hlength ▸ (List.getElem?_eq_some_iff.mp ht).1)⟩
    have hanswer := (hshows ht hP).refused (hi.custody.trimmed ht) frameLeft_iff he
    simp [Action.answer, hP, hanswer, Except.map]
  | deal d => exact he.elim
  | write f change => exact he.elim

theorem Reachable.exists_maps (hr : Reachable h) : ∃ maps, h.Shows maps := by
  induction hr with
  | initial ram => exact ⟨[], rfl, nofun⟩
  | @step h events r t a ha hrun hr ih =>
    obtain ⟨managed, hi⟩ := hr.inv
    obtain ⟨maps, hs⟩ := ih
    have hpost := (Op.Meets.post (perform_meets hi ha) hrun).1
    cases r with
    | ok =>
      obtain ⟨maps', -, hs'⟩ := Outcome.shows hi ha hpost hs
      exact ⟨maps', hs'⟩
    | error => exact hpost.1 ▸ ⟨maps, hs⟩

/-- The spaces of a host are maps all along a run, and whatever is done to them is
answered, and refused, as the maps say. A refusal changes nothing at all. -/
theorem spaces_refine_maps (hr : Reachable h) : ∃ maps, (∀ maps', h.Shows maps' ↔ maps' = maps) ∧
    ∀ a : Action, a.Allowed h → a.perform.Meets h.Short h
      (fun _ h' => ∃ maps', a.answer maps h.frameLeft = .ok maps' ∧ h'.Shows maps')
      fun e h' => a.answer maps h.frameLeft = .error e ∧ h' = h := by
  obtain ⟨managed, hi⟩ := hr.inv
  obtain ⟨maps, hs⟩ := hr.exists_maps
  refine ⟨maps, fun maps' => ⟨fun hs' => hs'.unique hs, fun he => he ▸ hs⟩, fun a ha => ?_⟩
  refine (perform_meets hi ha).mono (fun _ h' ho => ho.shows hi ha hs) fun e h' he => ?_
  exact ⟨hs.refused hi he.2, he.1⟩

theorem spaces_refine_maps_twoPages : ∃ h maps, twoPages = some h ∧ h.Shows maps ∧
    (Action.call 0 (.unassign 1024 2)).perform.Meets h.Short h
      (fun _ h' => ∃ maps', (Action.call 0 (.unassign 1024 2)).answer maps h.frameLeft = .ok maps' ∧
        h'.Shows maps')
      fun e h' =>
        (Action.call 0 (.unassign 1024 2)).answer maps h.frameLeft = .error e ∧ h' = h := by
  have hrun : twoPages.isSome = true := by decide +kernel
  obtain ⟨h, hh⟩ := Option.isSome_iff_exists.mp hrun
  obtain ⟨maps, hunique, hstep⟩ := spaces_refine_maps (reachable_of_after (.initial _) hh)
  exact ⟨h, maps, hh, (hunique maps).mpr rfl, hstep _ nofun⟩

end SpaceHost
end PagedKernel
