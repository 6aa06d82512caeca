import Mathlib.Algebra.GroupWithZero.Nat
import Mathlib.Data.List.Nodup
import PagedKernel.Proofs.Io.Accounts
import PagedKernel.Proofs.Io.Exchange

/-! Where the reads leave the streams. A device moves a stream when it seeks and when it reads
synchronously. Each read that is done has moved its stream once, by the bytes it reports; no other
read has. -/

namespace PagedKernel

namespace DeviceCall

def distance? : DeviceCall → Option Nat
  | seek _ distance (.ok ()) => some distance
  | syncRead _ _ _ (.ok n) => some n
  | _ => none

def moveStream (call : DeviceCall) (position : Fd → Nat) : Fd → Nat :=
  match call.distance? with
  | some n => Function.update position call.fd (position call.fd + n)
  | none => position

def distances (fd : Fd) (calls : List DeviceCall) : List Nat :=
  (calls.filter (·.fd = fd)).filterMap distance?

theorem distances_append (fd : Fd) (calls later : List DeviceCall) :
    distances fd (calls ++ later) = distances fd calls ++ distances fd later := by
  rw [distances, List.filter_append, List.filterMap_append]
  rfl

theorem distances_self (call : DeviceCall) : distances call.fd [call] = call.distance?.toList := by
  rw [distances, List.filter_cons, if_pos (decide_eq_true rfl), List.filter_nil]
  cases h : call.distance? <;> simp [h]

theorem moveStream_eq (call : DeviceCall) (position : Fd → Nat) (fd : Fd) :
    call.moveStream position fd = position fd + (distances fd [call]).sum := by
  unfold moveStream
  by_cases hfd : call.fd = fd
  · subst hfd
    rw [distances_self]
    cases call.distance? <;> simp
  · rw [distances, List.filter_cons, if_neg (mt of_decide_eq_true hfd)]
    cases call.distance? <;> simp [Function.update_of_ne (Ne.symm hfd)]

theorem foldl_moveStream (calls : List DeviceCall) (start : Fd → Nat) (fd : Fd) :
    calls.foldl (fun position call => call.moveStream position) start fd =
      start fd + (distances fd calls).sum := by
  induction calls generalizing start with
  | nil => rfl
  | cons call calls ih =>
    rw [List.foldl_cons, ih, moveStream_eq, Nat.add_assoc, ← List.sum_append, ← distances_append]
    rfl

end DeviceCall

open DeviceCall (distances)

variable {fd : Fd} {buffer : VirtualAddress} {count : Nat} {r : Read} {move : Move}
  {calls : List DeviceCall}

/-- What a move reports as read. Nothing is read for a read of no bytes. -/
def Move.delivered (count : Nat) : Move → List Nat
  | finish (.ok n) => if count = 0 then [] else [n]
  | _ => []

theorem distances_advance (fd : Fd) {n : Nat} (hn : n ≤ Read.maxSeek) (hcount : count ≠ 0)
    (moved : Except DeviceError Unit) : distances fd [.advance fd n moved] =
      Move.delivered count (.finish (.ofDevice (moved.map fun _ => n))) := by
  refine (DeviceCall.distances_self (.advance fd n moved)).trans ?_
  cases moved with
  | error cause => rfl
  | ok =>
    refine Eq.trans ?_ (if_neg hcount).symm
    exact congrArg (fun distance => [distance]) (Nat.min_eq_left hn)

theorem distances_syncRead (fd : Fd) (buffer : VirtualAddress) (hcount : count ≠ 0)
    (answer : Except DeviceError Nat) : distances fd [.syncRead fd buffer count answer] =
      Move.delivered count (.finish (.ofDevice answer)) := by
  refine (DeviceCall.distances_self (.syncRead fd buffer count answer)).trans ?_
  cases answer with
  | error cause => rfl
  | ok n => exact (if_neg hcount).symm

theorem distances_cons {call : DeviceCall} (h : call.distance? = none) :
    distances fd (call :: calls) = distances fd calls := by
  by_cases hfd : call.fd = fd <;> simp [distances, hfd, h]

theorem distances_other {other : Fd} (h : ∀ c ∈ calls, c.fd = fd) (hfd : fd ≠ other) :
    distances other calls = [] := by
  have hnone : calls.filter (·.fd = other) = [] := by
    refine List.filter_eq_nil_iff.mpr fun c hc => ?_
    rw [decide_eq_true_eq, h c hc]
    exact hfd
  rw [distances, hnone]
  rfl

theorem Polled.distances (h : Polled r move calls) (hmax : r.count ≤ Read.maxSeek)
    (hstarted : r.state = .inProgress → r.count ≠ 0) :
    DeviceCall.distances r.fd calls = move.delivered r.count := by
  cases h with
  | rests => rfl
  | opens => rfl
  | busy => exact distances_cons rfl
  | progresses => exact distances_cons rfl
  | completes hstate moved =>
    exact (distances_cons rfl).trans (distances_advance r.fd hmax (hstarted hstate) moved)
  | overruns => exact distances_cons rfl
  | fails => exact distances_cons rfl

theorem Issued.distances (h : Issued fd buffer count move calls) (hmax : count ≤ Read.maxSeek) :
    DeviceCall.distances fd calls = move.delivered count := by
  cases h with
  | empty hcount => exact (if_pos hcount).symm
  | starts => exact distances_cons rfl
  | delivers hcount hn moved =>
    exact (distances_cons rfl).trans (distances_advance fd (Nat.le_trans hn hmax) hcount moved)
  | overruns => exact distances_cons rfl
  | fails => exact distances_cons rfl
  | falls hcount answer =>
    exact (distances_cons rfl).trans (distances_syncRead fd buffer hcount answer)
  | reads hcount answer => exact distances_syncRead fd buffer hcount answer

theorem Exchanged.distances (h : Exchanged r move calls) (hmax : r.count ≤ Read.maxSeek)
    (hstarted : r.state = .inProgress → r.count ≠ 0) :
    DeviceCall.distances r.fd calls = move.delivered r.count := by
  cases h with
  | polled h => exact h.distances hmax hstarted
  | issued h => exact h.distances hmax
  | driven hpoll hissue =>
    rw [DeviceCall.distances_append, hpoll.distances hmax hstarted, hissue.distances hmax]
    rfl
  | cancelled => rfl

namespace Read

def Started (r : Read) : Prop :=
  r.state = .inProgress → r.count ≠ 0

theorem Started.make (h : r.Started) (hexchanged : Exchanged r move calls) (slots : Slots) :
    (move.make r slots).1.Started := by
  intro hstate
  cases move with
  | wait state =>
    obtain rfl : state = .inProgress := hstate
    rcases hexchanged.started with hbefore | hcount
    · exact h hbefore
    · exact hcount
  | finish result => cases result <;> cases hstate

def delivered (slots : Slots) (r : Read) : List Nat :=
  match slots.get? r.slot with
  | some result => Move.delivered r.count (.finish result)
  | none => []

def bytes (slots : Slots) (r : Read) : Nat :=
  match slots.get? r.slot with
  | some (.ok n) => n
  | _ => 0

theorem sum_delivered {slots : Slots}
    (hempty : r.count = 0 → ∀ n, slots.get? r.slot = some (.ok n) → n = 0) :
    (r.delivered slots).sum = r.bytes slots := by
  unfold delivered bytes
  cases hresult : slots.get? r.slot with
  | none => rfl
  | some result =>
    cases result with
    | error cause => rfl
    | ok n =>
      change (if r.count = 0 then [] else [n]).sum = n
      split
      · next hzero => exact (hempty hzero n hresult).symm
      · exact List.sum_singleton

end Read

theorem flatMap_perm_of_update {α β : Type} {l : List α} {f g : α → List β} {a : α} (hn : l.Nodup)
    (ha : a ∈ l) (hf : f a = []) (hother : ∀ b ∈ l, b ≠ a → g b = f b) :
    (l.flatMap g).Perm (l.flatMap f ++ g a) := by
  induction l with
  | nil => cases ha
  | cons b l ih =>
    obtain ⟨hfresh, hn⟩ := List.nodup_cons.mp hn
    rw [List.flatMap_cons, List.flatMap_cons]
    rcases List.mem_cons.mp ha with rfl | ha
    · have hsame : l.flatMap g = l.flatMap f := List.flatMap_congr fun b hb =>
        hother b (List.mem_cons_of_mem _ hb) fun heq => hfresh (heq ▸ hb)
      rw [hsame, hf, List.nil_append]
      exact List.perm_append_comm
    · rw [hother b List.mem_cons_self fun heq => hfresh (heq ▸ ha), List.append_assoc]
      exact (ih hn ha fun c hc => hother c (List.mem_cons_of_mem _ hc)).append_left _

def deliveries (fd : Fd) (slots : Slots) (made : List Read) : List Nat :=
  (made.filter (·.fd = fd)).flatMap (Read.delivered slots)

/-- Each read that is done has moved its stream once, and no other read has. -/
structure Tally (made : List Read) (slots : Slots) (calls : List DeviceCall) : Prop where
  moves : ∀ fd, (distances fd calls).Perm (deliveries fd slots made)
  empty : ∀ r ∈ made, r.count = 0 → ∀ n, slots.get? r.slot = some (.ok n) → n = 0

namespace Tally

variable {made : List Read} {slots slots' : Slots} {later : List DeviceCall} {r₀ : Read}

theorem make (ht : Tally made slots calls) (hn : (made.map Read.slot).Nodup) (hr₀ : r₀ ∈ made)
    (hfollows : r₀.Follows r) (hmax : r₀.count ≤ Read.maxSeek) (hs : r.InStep slots)
    (hstarted : r.Started) (hfits : move.Fits r.state) (hexchanged : Exchanged r move later) :
    Tally made (move.make r slots).2 (calls ++ later) := by
  have hcount : r.count = r₀.count := by
    rw [hfollows]
  have hmoved : distances r.fd later = move.delivered r₀.count :=
    hcount ▸ hexchanged.distances (hcount ▸ hmax) hstarted
  have hstill : ∀ fd, r.fd ≠ fd → distances fd later = [] :=
    fun fd => distances_other hexchanged.calls_fd
  cases move with
  | wait state =>
    refine ⟨fun fd => ?_, ht.empty⟩
    have hnone : distances fd later = [] := by
      by_cases hfd : r.fd = fd
      · exact hfd ▸ hmoved
      · exact hstill fd hfd
    rw [DeviceCall.distances_append, hnone, List.append_nil]
    exact ht.moves fd
  | finish result =>
    have hopen : slots.Open r₀.slot := by
      cases hfits with
      | ends hpending => exact hfollows.slot ▸ hs.pending hpending
    have hresult : (slots.resolve r.slot result).2.get? r₀.slot = some result := by
      rw [hfollows.slot]
      exact Slots.get?_resolve hopen result
    have hother : ∀ r' ∈ made, r' ≠ r₀ →
        (slots.resolve r.slot result).2.get? r'.slot = slots.get? r'.slot := by
      intro r' hr' hne
      refine Slots.get?_congr (Slots.cell_resolve (fun heq => hne ?_) result)
      exact List.inj_on_of_nodup_map hn hr' hr₀ (heq.trans hfollows.slot)
    have hdelivered : r₀.delivered (slots.resolve r.slot result).2 =
        Move.delivered r₀.count (.finish result) := by
      rw [Read.delivered, hresult]
    have hnothing : r₀.delivered slots = [] := by
      rw [Read.delivered, Slots.get?_of_open hopen]
    have hkeeps : ∀ r' ∈ made, r' ≠ r₀ →
        r'.delivered (slots.resolve r.slot result).2 = r'.delivered slots := by
      intro r' hr' hne
      rw [Read.delivered, Read.delivered, hother r' hr' hne]
    refine ⟨fun fd => ?_, fun r' hr' hzero n hn' => ?_⟩
    · rw [DeviceCall.distances_append]
      refine ((ht.moves fd).append_right _).trans (List.Perm.symm ?_)
      by_cases hfd : r₀.fd = fd
      · have hmem : r₀ ∈ made.filter (·.fd = fd) :=
          List.mem_filter.mpr ⟨hr₀, decide_eq_true hfd⟩
        have hlater : distances fd later = r₀.delivered (slots.resolve r.slot result).2 := by
          rw [hdelivered, ← hmoved, hfollows.fd, hfd]
        rw [hlater]
        exact flatMap_perm_of_update (hn.of_map.filter _) hmem hnothing fun r' hr' hne =>
          hkeeps r' (List.mem_of_mem_filter hr') hne
      · rw [hstill fd (fun heq => hfd (hfollows.fd.symm.trans heq)), List.append_nil]
        refine .of_eq (List.flatMap_congr fun r' hr' => ?_)
        obtain ⟨hmem, hsame⟩ := List.mem_filter.mp hr'
        have hne : r' ≠ r₀ := fun heq => hfd (heq ▸ of_decide_eq_true hsame)
        exact hkeeps r' hmem hne
    · by_cases heq : r' = r₀
      · subst heq
        cases hresult.symm.trans hn'
        exact hexchanged.of_empty hstarted (hcount.trans hzero)
      · exact ht.empty r' hr' hzero n ((hother r' hr' heq).symm.trans hn')

theorem add (ht : Tally made slots calls) (hlt : ∀ r ∈ made, r.slot < slots.cells.size)
    {r? : Option Read} (hnew : ∀ r, r? = some r → r.slot = slots.handOut.1) :
    Tally (made ++ r?.toList) slots.handOut.2 calls := by
  have hold : ∀ r ∈ made, slots.handOut.2.get? r.slot = slots.get? r.slot :=
    fun r hr => Slots.get?_congr (Slots.cell_handOut (hlt r hr))
  have hopen : ∀ r ∈ r?.toList, slots.handOut.2.get? r.slot = none := by
    intro r hr
    rw [hnew r (Option.mem_toList.mp hr)]
    exact slots.get?_handOut
  refine ⟨fun fd => ?_, fun r hr hzero n hn => ?_⟩
  · have hsame : deliveries fd slots.handOut.2 made = deliveries fd slots made := by
      refine List.flatMap_congr fun r hr => ?_
      rw [Read.delivered, Read.delivered, hold r (List.mem_of_mem_filter hr)]
    have hnone : deliveries fd slots.handOut.2 r?.toList = [] := by
      refine List.flatMap_eq_nil_iff.mpr fun r hr => ?_
      rw [Read.delivered, hopen r (List.mem_of_mem_filter hr)]
    rw [deliveries, List.filter_append, List.flatMap_append]
    change (distances fd calls).Perm
      (deliveries fd slots.handOut.2 made ++ deliveries fd slots.handOut.2 r?.toList)
    rw [hsame, hnone, List.append_nil]
    exact ht.moves fd
  · rcases List.mem_append.mp hr with hr | hr
    · exact ht.empty r hr hzero n ((hold r hr).symm.trans hn)
    · cases (hopen r hr).symm.trans hn

theorem sum_deliveries (ht : Tally made slots calls) (fd : Fd) :
    (deliveries fd slots made).sum =
      ((made.filter (·.fd = fd)).map (Read.bytes slots)).sum := by
  rw [deliveries, List.flatMap_def, List.sum_flatten, List.map_map]
  exact congrArg List.sum (List.map_congr_left fun r hr =>
    Read.sum_delivered (ht.empty r (List.mem_of_mem_filter hr)))

end Tally

namespace ReadQueue

inductive Talks : List QueueEntry → Slots → List Visit → List DeviceCall → Slots → Prop
  | done (slots : Slots) : Talks [] slots [] [] slots
  | skip (e : QueueEntry) {rest : List QueueEntry} {slots slots' : Slots} {visits : List Visit}
    {calls : List DeviceCall} (h : Talks rest slots visits calls slots') :
    Talks (e :: rest) slots (.skipped e :: visits) calls slots'
  | make (e : QueueEntry) {move : Move} {rest : List QueueEntry} {slots slots' : Slots}
    {visits : List Visit} {calls later : List DeviceCall} (hfits : move.Fits e.read.state)
    (hexchanged : Exchanged e.read move calls)
    (h : Talks rest (move.make e.read slots).2 visits later slots') :
    Talks (e :: rest) slots (.made e (move.make e.read slots) :: visits) (calls ++ later) slots'

theorem pollPass_talks {δ : Type} (device : Device δ) (asyncReads : Bool) (claimed : List Fd)
    (es : List QueueEntry) (w : Recorded δ DeviceCall × Slots) : ∃ calls,
      (pollPass device.recorded asyncReads claimed es w).2.1.calls = w.1.calls ++ calls ∧
      Talks es w.2 (pollPass device.recorded asyncReads claimed es w).1 calls
        (pollPass device.recorded asyncReads claimed es w).2.2 := by
  induction es generalizing claimed w with
  | nil => exact ⟨[], (List.append_nil _).symm, .done _⟩
  | cons e rest ih =>
    rw [pollPass]
    split
    · obtain ⟨calls, hcalls, htalks⟩ := ih claimed w
      exact ⟨calls, hcalls, .skip e htalks⟩
    · obtain ⟨calls, hcalls, hexchanged⟩ := device.driveMove_exchanged asyncReads w.1 e.read
      obtain ⟨later, hlater, htalks⟩ := ih _ (_, _)
      have hfits := device.recorded.driveMove_fits asyncReads e.read w.1
      refine ⟨calls ++ later, ?_, .make e hfits hexchanged htalks⟩
      rw [← List.append_assoc, ← hcalls]
      exact hlater

theorem cancelPass_talks (selected : QueueEntry → Bool) (es : List QueueEntry) (slots : Slots) :
    Talks es slots (cancelPass selected es slots).1 [] (cancelPass selected es slots).2 := by
  induction es generalizing slots with
  | nil => exact .done _
  | cons e rest ih =>
    rw [cancelPass]
    split
    · exact .make e e.read.cancelMove_fits e.read.cancelMove_exchanged (ih _)
    · exact .skip e (ih slots)

namespace Talks

variable {es : List QueueEntry} {slots slots' : Slots} {visits : List Visit}
  {later : List DeviceCall} {made : List Read}

theorem started (h : Talks es slots visits later slots') (hes : ∀ e ∈ es, e.read.Started) :
    ∀ v ∈ visits, v.after.read.Started := by
  induction h with
  | done => exact List.forall_mem_nil _
  | skip e _ ih =>
    obtain ⟨he, hes⟩ := List.forall_mem_cons.mp hes
    exact List.forall_mem_cons.mpr ⟨he, ih hes⟩
  | make e _ hexchanged _ ih =>
    obtain ⟨he, hes⟩ := List.forall_mem_cons.mp hes
    exact List.forall_mem_cons.mpr ⟨he.make hexchanged _, ih hes⟩

theorem tally (h : Talks es slots visits later slots') (ht : Tally made slots calls)
    (hn : (made.map Read.slot).Nodup) (hmax : ∀ r ∈ made, r.count ≤ Read.maxSeek)
    (hslots : (slotsOf es).Nodup) (hmade : ∀ e ∈ es, ∃ r ∈ made, r.Follows e.read)
    (hinStep : ∀ e ∈ es, e.read.InStep slots) (hstarted : ∀ e ∈ es, e.read.Started) :
    Tally made slots' (calls ++ later) := by
  induction h generalizing calls with
  | done => rwa [List.append_nil]
  | skip e _ ih =>
    exact ih ht (List.nodup_cons.mp hslots).2 (List.forall_mem_cons.mp hmade).2
      (List.forall_mem_cons.mp hinStep).2 (List.forall_mem_cons.mp hstarted).2
  | @make e move rest slots slots' visits now later hfits hexchanged _ ih =>
    obtain ⟨hfresh, hslots⟩ := List.nodup_cons.mp hslots
    obtain ⟨⟨r, hr, hfollows⟩, hmade⟩ := List.forall_mem_cons.mp hmade
    obtain ⟨he, hinStep⟩ := List.forall_mem_cons.mp hinStep
    obtain ⟨hestarted, hstarted⟩ := List.forall_mem_cons.mp hstarted
    have hother : ∀ e' ∈ rest, e'.read.InStep (move.make e.read slots).2 := fun e' he' =>
      (hinStep e' he').congr (Move.make_cell fun heq => hfresh (List.mem_map.mpr ⟨e', he', heq⟩))
    rw [← List.append_assoc]
    exact ih (ht.make hn hr hfollows (hmax r hr) he hestarted hfits hexchanged) hslots hmade hother
      hstarted

end Talks
end ReadQueue

namespace ReadHost

variable {δ μ : Type} {backend : Backend δ μ} {m₀ : μ} {h h' : ReadHost δ μ} {j j' : Journal}

structure Streams (h : ReadHost δ μ) (j : Journal) : Prop where
  tally : Tally j.made h.world.slots h.world.device.calls
  started : ∀ r ∈ h.reads, r.Started

namespace Streams

theorem called {q : ReadQueue} {before after : List Read} {r : Read} {world : ObservedWorld δ μ}
    (hs : Streams ⟨q, before ++ r :: after, world⟩ j)
    (hi : Inv j.made j.submitted ⟨q, before ++ r :: after, world⟩)
    (hmax : ∀ r ∈ j.made, r.count ≤ Read.maxSeek) {move : Move} {later : List DeviceCall}
    {t : Read × ObservedWorld δ μ} (hfits : move.Fits r.state)
    (hexchanged : Exchanged r move later) (hmade : (t.1, t.2.slots) = move.make r world.slots)
    (hcalls : t.2.device.calls = world.device.calls ++ later) :
    Streams ⟨q, before ++ t.1 :: after, t.2⟩ j := by
  have hr := (reads_perm q before after r world).mem_iff.mpr List.mem_cons_self
  have hread : t.1 = (move.make r world.slots).1 := congrArg Prod.fst hmade
  have hslots : t.2.slots = (move.make r world.slots).2 := congrArg Prod.snd hmade
  refine ⟨?_, fun r' hr' => ?_⟩
  · obtain ⟨r₀, hr₀, hfollows⟩ := hi.exists_made hr
    dsimp only
    rw [hslots, hcalls]
    exact hs.tally.make hi.numbered hr₀ hfollows (hmax r₀ hr₀) (hi.inStep r hr) (hs.started r hr)
      hfits hexchanged
  · rcases List.mem_cons.mp ((reads_perm _ _ _ _ _).mem_iff.mp hr') with rfl | hr'
    · rw [hread]
      exact (hs.started r hr).make hexchanged _
    · exact hs.started r' ((reads_perm _ _ _ _ _).mem_iff.mpr (List.mem_cons_of_mem _ hr'))

theorem visited (hs : Streams h j) (hi : Inv j.made j.submitted h)
    (hmax : ∀ r ∈ j.made, r.count ≤ Read.maxSeek) {visits : List ReadQueue.Visit}
    {later : List DeviceCall} {t : ReadQueue × ObservedWorld δ μ}
    (htalks : ReadQueue.Talks h.queue.entries h.world.slots visits later t.2.slots)
    (hcalls : t.2.device.calls = h.world.device.calls ++ later)
    (hkept : ∀ e ∈ t.1.entries, ∃ v ∈ visits, v.after = e) (hj : j'.made = j.made) :
    Streams ⟨t.1, h.hand, t.2⟩ j' := by
  have hqueued : ∀ e ∈ h.queue.entries, e.read ∈ h.reads := fun e he =>
    List.mem_append_left _ (List.mem_map_of_mem he)
  have hstarted : ∀ e ∈ h.queue.entries, e.read.Started := fun e he =>
    hs.started _ (hqueued e he)
  refine ⟨?_, fun r hr => ?_⟩
  · rw [hj, hcalls]
    exact htalks.tally hs.tally hi.numbered hmax hi.queue_nodup
      (fun e he => hi.exists_made (hqueued e he)) (fun e he => hi.inStep _ (hqueued e he)) hstarted
  · rcases List.mem_append.mp hr with hr | hr
    · obtain ⟨e, he, rfl⟩ := List.mem_map.mp hr
      obtain ⟨v, hv, rfl⟩ := hkept e he
      exact htalks.started hstarted v hv
    · exact hs.started r (List.mem_append_right _ hr)

theorem change (hs : Streams h j) (hi : Inv j.made j.submitted h)
    (hmax : ∀ r ∈ j.made, r.count ≤ Read.maxSeek) (hc : Change backend h j h' j') :
    Streams h' j' := by
  cases hc with
  | prepared _ hnew =>
    refine ⟨hs.tally.add hi.handedOut fun r hr => (hnew r hr).2, fun r hr => ?_⟩
    rw [reads, ← List.append_assoc] at hr
    rcases List.mem_append.mp hr with hr | hr
    · exact hs.started r hr
    · intro hstate
      cases (hnew r (Option.mem_toList.mp hr)).1.symm.trans hstate
  | @called before after r t call hhand hmoved =>
    obtain ⟨q, hand, world⟩ := h
    obtain rfl : hand = before ++ r :: after := hhand
    have hdevice : backend.observed.device = backend.device.recorded := rfl
    obtain ⟨later, hcalls, hexchanged⟩ := call.move_exchanged hdevice r world.device
    exact hs.called hi hmax call.move_fits hexchanged hmoved.made
      ((congrArg Recorded.calls hmoved.device).trans hcalls)
  | @submitted before after r pid hhand =>
    obtain ⟨q, hand, world⟩ := h
    obtain rfl : hand = before ++ r :: after := hhand
    exact ⟨hs.tally, fun r' hr' =>
      hs.started r' ((reads_submit q before after r pid world).mem_iff.mp hr')⟩
  | polled hvisited hshared =>
    obtain ⟨later, hcalls, htalks⟩ := ReadQueue.pollPass_talks backend.device backend.asyncReads []
      h.queue.entries (h.world.device, h.world.slots)
    change _ = (ReadQueue.pollPass backend.device.recorded _ _ _ _).2 at hshared
    rw [← hshared] at hcalls htalks
    refine hs.visited hi hmax htalks hcalls (fun e he => ?_) rfl
    obtain ⟨v, hv, -, heq⟩ := (ReadQueue.pollPass_visits _ _ _ _ _).exists_kept
      (hvisited.entries ▸ he)
    exact ⟨v, hv, heq⟩
  | cancelled selected hvisited hdevice hslots =>
    have htalks := ReadQueue.cancelPass_talks selected h.queue.entries h.world.slots
    rw [← hslots] at htalks
    refine hs.visited hi hmax htalks ?_ (fun e he => ?_) rfl
    · rw [hdevice, List.append_nil]
    · obtain ⟨v, hv, -, heq⟩ := (ReadQueue.cancelPass_visits _ _ _).exists_kept
        (hvisited.entries ▸ he)
      exact ⟨v, hv, heq⟩
  | drifted => exact ⟨hs.tally, hs.started⟩

end Streams

theorem Runs.streams (hruns : Runs backend m₀ h j) (hmax : ∀ r ∈ j.made, r.count ≤ Read.maxSeek) :
    Streams h j := by
  refine (hruns.invariant (P := fun h j => Inv j.made j.submitted h ∧
    ((∀ r ∈ j.made, r.count ≤ Read.maxSeek) → Streams h j))
    (fun d => ⟨.initial d m₀, ?_⟩) ?_).2 hmax
  · exact fun _ => ⟨⟨fun _ => .refl _, List.forall_mem_nil _⟩, List.forall_mem_nil _⟩
  · rintro h j h' j' hc ⟨hi, hs⟩
    refine ⟨hi.change hc, fun hmax => ?_⟩
    have hbefore : ∀ r ∈ j.made, r.count ≤ Read.maxSeek := fun r hr => hmax r (hc.made_subset hr)
    exact (hs hbefore).change hi hbefore hc

/-- Where the calls of a run leave the streams, and which reads moved them. -/
structure Streamed (start : Fd → Nat) (h : ReadHost δ μ) (j : Journal) : Prop where
  position : ∀ fd,
    h.world.device.calls.foldl (fun position call => call.moveStream position) start fd =
      start fd + ((j.made.filter (·.fd = fd)).map (Read.bytes h.world.slots)).sum
  moves : ∀ fd, (distances fd h.world.device.calls).Perm (deliveries fd h.world.slots j.made)
  stands : ∀ r₀ ∈ j.made, (∃ r ∈ h.reads, r₀.Follows r ∧ r.InStep h.world.slots) ∨
    ∃ c ∈ j.polled.flatten ++ j.cancelled.flatten,
      c.fd = r₀.fd ∧ h.world.slots.get? r₀.slot = some c.result

theorem streams_advanced (hruns : Runs backend m₀ h j)
    (hmax : ∀ r ∈ j.made, r.count ≤ Read.maxSeek) (start : Fd → Nat) : Streamed start h j := by
  have htally := (hruns.streams hmax).tally
  refine ⟨fun fd => ?_, htally.moves, hruns.stands⟩
  rw [DeviceCall.foldl_moveStream, (htally.moves fd).sum_nat, htally.sum_deliveries]

theorem streams_advanced_threeReads : ∃ h j, Runs Backend.scripted .initial h j ∧
    (∀ r ∈ j.made, r.count ≤ Read.maxSeek) ∧ Streamed (fun _ => 100) h j ∧
    h.world.device.calls.foldl (fun position call => call.moveStream position)
      (fun _ => 100) ⟨3⟩ = 108 ∧
    h.world.device.calls.foldl (fun position call => call.moveStream position)
      (fun _ => 100) ⟨4⟩ = 100 := by
  have hpoll : (ReadQueue.pollAll Backend.scripted.observed).Leads
    (¬ Backend.scripted.observed.mapper.Answers) (⟨threeReads⟩, threeLent oneBusy) _ :=
      ReadQueue.pollAll_visits _
  obtain ⟨ended, ⟨⟨q, world⟩, later⟩, hpoll, -, hshared⟩ :=
    hpoll.answers (not_not_intro LedgerMapper.answers) #[]
  have hpolled := (runs_threeReads oneBusy).pollAll #[] hpoll
  have hslots : world.slots = ⟨#[.ready (.ok 8), .empty, .empty]⟩ := congrArg Prod.snd hshared
  have hmax : ∀ r ∈ threeReads.map (·.read), r.count ≤ Read.maxSeek := by decide
  have hstreamed := streams_advanced hpolled hmax fun _ => 100
  refine ⟨_, _, hpolled, hmax, hstreamed, (hstreamed.position ⟨3⟩).trans ?_,
    (hstreamed.position ⟨4⟩).trans ?_⟩
  · dsimp only
    rw [hslots]
    rfl
  · dsimp only
    rw [hslots]
    rfl

end ReadHost
end PagedKernel
