import Mathlib.Data.Prod.Lex
import ApexLs.Collections.PartialRuns
import ApexLs.Server.DataOwnerQueues

/-! The serial work of the data owner. Each item has a delay that every turn of the daemon lowers,
so on a fair schedule its run comes. -/
namespace ApexLs.Server

open ApexLs.Collections

namespace DOQueues

variable {ε : Type u}

section

variable {s : DOQueues ε} {access : Access} {item : Nat}

/-- How many turns the daemon is at most from its next `takeAll`. -/
def untilDrain : Option Phase → Nat
  | none => 0
  | some .drain => 0
  | some .asleep => 1
  | some (.writing _) => 1
  | some (.write _) => 2
  | some (.reads _ rest) => 2 * rest.length + 3
  | some (.reading _ _ rest) => 2 * rest.length + 4

/-- How far an item is from its end: the passes before its own, then the turns in the pass. -/
def delay (s : DOQueues ε) (item : Nat) : Nat ×ₗ Nat :=
  if item ∈ s.read then toLex (1,untilDrain s.loop)
  else if item ∈ s.write then
    match s.loop with
    | some (.reads _ rest) => toLex (2 * s.write.idxOf item + 2,2 * rest.length)
    | some (.reading _ _ rest) => toLex (2 * s.write.idxOf item + 2,2 * rest.length + 1)
    | loop => toLex (2 * s.write.idxOf item + 3,untilDrain loop)
  else
    match s.loop with
    | some (.reads _ rest) => toLex (0,2 * rest.idxOf item + 2)
    | some (.reading other _ rest) => if other = item then toLex (0,1) else toLex (0,2 * rest.idxOf item + 3)
    | some (.write _) => toLex (0,2)
    | _ => toLex (0,1)

theorem earlier_pass {a b c d : Nat} (less : a < c ∨ a = c ∧ b < d) :
    (toLex (a,b) : Nat ×ₗ Nat) < toLex (c,d) :=
  Prod.Lex.toLex_lt_toLex.mpr less

theorem Kept.unforked (kept : Kept s) (none_ : s.loop = none) : item ∉ s.pending access := by
  intro waits
  have queued : item ∈ queuedItems access s.history := by
    rw [kept.lines]
    exact List.mem_append_right _ waits
  rw [kept.forked none_] at queued
  cases queued

theorem Kept.apart (kept : Kept s) (reads : item ∈ s.pending .read) : item ∉ s.pending .write := by
  intro writes
  obtain ⟨row,own,asked⟩ := kept.known .read item (by rw [kept.lines]; exact List.mem_append_right _ reads)
  obtain ⟨same,own',asked'⟩ := kept.known .write item (by rw [kept.lines]; exact List.mem_append_right _ writes)
  obtain rfl := Option.some.inj (own.symm.trans own')
  cases asked.symm.trans asked'

theorem Kept.pending_nodup (kept : Kept s) (access : Access) : (s.pending access).Nodup := by
  have ordered := kept.ordered access
  rw [kept.lines,List.pairwise_append] at ordered
  exact ordered.2.1.imp Nat.ne_of_lt

theorem turn_delay_read (kept : Kept s) (waits : item ∈ s.read) (exit : ε) :
    (s.turn exit).delay item < s.delay item := by
  have before : s.delay item = toLex (1,untilDrain s.loop) := by rw [delay,if_pos waits]
  have stays : ∀ t : DOQueues ε, t.read = s.read → untilDrain t.loop < untilDrain s.loop → t.delay item < s.delay item := by
    intro t same nearer
    rw [before,delay,if_pos (same ▸ waits)]
    exact earlier_pass (.inr ⟨rfl,nearer⟩)
  cases now : s.loop with
  | none =>
    have nothing : item ∉ s.pending .read := kept.unforked now
    exact absurd (List.mem_append_right _ waits) nothing
  | some phase =>
    cases phase with
    | drain =>
      have outside : item ∉ s.write := by
        intro writes
        exact kept.apart (List.mem_append_right _ waits) (List.mem_append_right _ writes)
      rw [before,turn_drain now,delay]
      simp only [List.not_mem_nil,if_false,outside]
      exact earlier_pass (.inl Nat.one_pos)
    | reads took rest =>
      cases rest with
      | nil =>
        cases write : s.write with
        | nil =>
          rw [turn_idle now write]
          apply stays
          · rfl
          · cases took <;> simp [now,untilDrain]
        | cons other rest =>
          rw [turn_take now write]
          apply stays
          · rfl
          · simp [now,untilDrain]
      | cons other rest =>
        rw [turn_reads now]
        apply stays
        · rfl
        · simp [DOQueues.start,now,untilDrain]
          omega
    | reading other took rest =>
      rw [turn_reading now]
      apply stays
      · rfl
      · simp [DOQueues.finish,now,untilDrain]
    | write other =>
      rw [turn_write now]
      apply stays
      · rfl
      · simp [DOQueues.start,now,untilDrain]
    | writing other =>
      rw [turn_writing now]
      apply stays
      · rfl
      · simp [DOQueues.finish,now,untilDrain]
    | asleep =>
      rw [turn_asleep now]
      apply stays
      · rfl
      · simp [now,untilDrain]

theorem turn_delay_write (kept : Kept s) (waits : item ∈ s.write) (exit : ε) :
    (s.turn exit).delay item < s.delay item := by
  have lined : item ∈ s.pending .write := List.mem_append_right _ waits
  have outside : item ∉ s.read := fun reads => kept.apart (List.mem_append_right _ reads) lined
  cases now : s.loop with
  | none => exact (kept.unforked now lined).elim
  | some phase =>
    cases phase with
    | drain =>
      rw [turn_drain now]
      simp only [delay,outside,waits,now,List.not_mem_nil,if_false,if_true]
      exact earlier_pass (.inl (Nat.lt_succ_self _))
    | reads took rest =>
      cases rest with
      | nil =>
        cases write : s.write with
        | nil =>
          rw [write] at waits
          cases waits
        | cons other rest =>
          rw [turn_take now write]
          rw [write] at waits
          by_cases first : other = item
          · have alone : item ∉ rest := by
              have apart := kept.pending_nodup .write
              simp only [pending,now,DOQueues.taken,List.nil_append,write,first] at apart
              exact (List.nodup_cons.mp apart).1
            simp only [delay,outside,alone,now,write,waits,if_false,if_true]
            exact earlier_pass (.inl (Nat.succ_pos _))
          · have later : item ∈ rest := (List.mem_cons.mp waits).resolve_left (Ne.symm first)
            simp only [delay,outside,later,now,write,waits,if_false,if_true,List.idxOf_cons_ne _ first]
            exact earlier_pass (.inl (by omega))
      | cons other rest =>
        rw [turn_reads now]
        simp only [delay,DOQueues.start,outside,waits,now,if_false,if_true,List.length_cons]
        exact earlier_pass (.inr ⟨rfl,by omega⟩)
    | reading other took rest =>
      rw [turn_reading now]
      simp only [delay,DOQueues.finish,outside,waits,now,if_false,if_true]
      exact earlier_pass (.inr ⟨rfl,by omega⟩)
    | write other =>
      rw [turn_write now]
      simp only [delay,DOQueues.start,outside,waits,now,if_false,if_true]
      exact earlier_pass (.inr ⟨rfl,Nat.one_lt_two⟩)
    | writing other =>
      rw [turn_writing now]
      simp only [delay,DOQueues.finish,outside,waits,now,if_false,if_true]
      exact earlier_pass (.inr ⟨rfl,Nat.one_pos⟩)
    | asleep =>
      rw [turn_asleep now]
      simp only [delay,outside,waits,now,if_false,if_true]
      exact earlier_pass (.inr ⟨rfl,Nat.one_pos⟩)

theorem turn_delay_batch (kept : Kept s) (waits : item ∈ batch s.loop) (exit : ε) :
    (s.turn exit).delay item < s.delay item := by
  have lined : item ∈ s.pending .read := List.mem_append_left _ waits
  have outside : item ∉ s.write := fun writes => kept.apart lined (List.mem_append_right _ writes)
  have alone : item ∉ s.read := fun reads => (List.nodup_append.mp (kept.pending_nodup .read)).2.2 _ waits _ reads rfl
  have fresh := kept.fresh lined
  cases now : s.loop with
  | none => exact (kept.unforked now lined).elim
  | some phase =>
    rw [now] at waits
    cases phase with
    | reads took rest =>
      cases rest with
      | nil => cases waits
      | cons other rest =>
        rw [turn_reads now]
        by_cases first : other = item
        · simp only [delay,DOQueues.start,outside,alone,now,first,if_false,if_true,List.idxOf_cons_self]
          exact earlier_pass (.inr ⟨rfl,by omega⟩)
        · simp only [delay,DOQueues.start,outside,alone,now,first,if_false,List.idxOf_cons_ne _ first]
          exact earlier_pass (.inr ⟨rfl,by omega⟩)
    | reading other took rest =>
      rw [turn_reading now]
      have first : other ≠ item := by
        rintro rfl
        rw [kept.serial,now] at fresh
        exact fresh (List.mem_append_right _ (List.mem_singleton_self other))
      simp only [delay,DOQueues.finish,outside,alone,now,first,if_false]
      exact earlier_pass (.inr ⟨rfl,by omega⟩)
    | _ => cases waits

theorem turn_delay_taken (kept : Kept s) (waits : item ∈ DOQueues.taken s.loop) (exit : ε) :
    (s.turn exit).delay item < s.delay item := by
  have lined : item ∈ s.pending .write := List.mem_append_left _ waits
  have outside : item ∉ s.read := fun reads => kept.apart (List.mem_append_right _ reads) lined
  have alone : item ∉ s.write := fun writes => (List.nodup_append.mp (kept.pending_nodup .write)).2.2 _ waits _ writes rfl
  cases now : s.loop with
  | none => exact (kept.unforked now lined).elim
  | some phase =>
    rw [now] at waits
    cases phase with
    | write other =>
      rw [turn_write now]
      simp only [delay,DOQueues.start,outside,alone,now,if_false]
      exact earlier_pass (.inr ⟨rfl,Nat.one_lt_two⟩)
    | _ => cases waits

theorem turn_ends (runs : item ∈ running s.loop) (exit : ε) : .ended item exit ∈ (s.turn exit).history := by
  cases now : s.loop with
  | none => rw [now] at runs; cases runs
  | some phase =>
    rw [now] at runs
    cases phase with
    | reading other took rest =>
      obtain rfl := List.mem_singleton.mp runs
      rw [turn_reading now]
      exact List.mem_append_right _ (List.mem_singleton_self _)
    | writing other =>
      obtain rfl := List.mem_singleton.mp runs
      rw [turn_writing now]
      exact List.mem_append_right _ (List.mem_singleton_self _)
    | _ => cases runs

def Settled (item : Nat) (s : DOQueues ε) : Prop := ∃ exit, .ended item exit ∈ s.history

def Queued (item : Nat) (s : DOQueues ε) : Prop := ∃ access, .queued access item ∈ s.history

theorem Kept.whereabouts (kept : Kept s) (queued : Queued item s) (open_ : ¬ Settled item s) :
    (∃ access, item ∈ s.pending access) ∨ item ∈ running s.loop := by
  obtain ⟨access,queued⟩ := queued
  have line := mem_queuedItems.mpr queued
  rw [kept.lines,List.mem_append] at line
  rcases line with started | waits
  · right
    have ran : item ∈ begun s.history := mem_begun.mpr ⟨access,mem_startedItems.mp started⟩
    rw [kept.serial,List.mem_append] at ran
    exact ran.resolve_left (fun ended => open_ (mem_endedItems.mp ended))
  · exact .inl ⟨access,waits⟩

theorem turn_delay (kept : Kept s) (queued : Queued item s) (open_ : ¬ Settled item s) (exit : ε) :
    Settled item (s.turn exit) ∨ (s.turn exit).delay item < s.delay item := by
  rcases kept.whereabouts queued open_ with ⟨access,waits⟩ | runs
  · right
    cases access with
    | read =>
      rcases List.mem_append.mp waits with batched | reads
      · exact turn_delay_batch kept batched exit
      · exact turn_delay_read kept reads exit
    | write =>
      rcases List.mem_append.mp waits with taken | writes
      · exact turn_delay_taken kept taken exit
      · exact turn_delay_write kept writes exit
  · exact .inl ⟨exit,turn_ends runs exit⟩

theorem offer_delay (kept : Kept s) (queued : Queued item s) (access : Access) :
    (s.offer access).delay item = s.delay item := by
  obtain ⟨own,queued⟩ := queued
  have forked : s.initDataOwnerQueues = s := by
    rw [DOQueues.initDataOwnerQueues]
    split
    · next fresh =>
      rw [kept.forked fresh] at queued
      cases queued
    · rfl
  obtain ⟨row,known,_⟩ := kept.known own item (mem_queuedItems.mpr queued)
  have older : item ≠ s.items.length := Nat.ne_of_lt (List.getElem?_eq_some_iff.mp known).1
  cases access with
  | read => simp [delay,DOQueues.offer,forked,older]
  | write =>
    by_cases waits : item ∈ s.write
    · simp [delay,DOQueues.offer,forked,waits,List.idxOf_append_of_mem]
    · simp [delay,DOQueues.offer,forked,older,waits]

theorem step_history (s : DOQueues ε) (event : Event ε) : s.history <+: (s.step event).history := by
  cases event with
  | offered access =>
    cases access with
    | read => exact ⟨_,(offer_history s .read).symm⟩
    | write => exact ⟨_,(offer_history s .write).symm⟩
  | resumed item => exact List.prefix_rfl
  | interrupted item => exact List.prefix_rfl
  | turn exit =>
    rw [DOQueues.step,DOQueues.turn]
    split
    · exact List.prefix_rfl
    · exact List.prefix_append _ _
    · exact List.prefix_append _ _
    · exact List.prefix_append _ _
    · split <;> exact List.prefix_rfl
    · exact List.prefix_append _ _
    · exact List.prefix_append _ _
    · exact List.prefix_rfl

theorem queued_step (queued : Queued item s) (event : Event ε) : Queued item (s.step event) :=
  queued.imp fun _ member => (step_history s event).mem member

def IsTurn : Event ε → Prop
  | .turn _ => True
  | _ => False

/-- The daemon serialises its work: in every run the runs do not overlap, and at the start of a
write the only reads it overtakes were queued since the daemon last took the waiting ones, and have
been overtaken by no other. On every schedule that lets the daemon go on, every item is run. -/
theorem data_owner_serialises :
    (∀ inputs : List (Event ε), EveryState step Serialised {} inputs ∧ EveryStep step ReadsNext {} inputs) ∧
      ∀ schedule : Nat → Event ε, FairSchedule IsTurn schedule →
        ∀ n item, Queued item (stateAt step {} schedule n) → ∃ m, n ≤ m ∧ Settled item (stateAt step {} schedule m) := by
  constructor
  · intro inputs
    have always : EveryState step Kept {} inputs :=
      everyState_of_step (fun _ event kept => kept.step event) start_kept inputs
    constructor
    · exact fun front initial => (always front initial).serialised
    · exact everyStep_of_everyState (fun _ event kept => kept.readsNext event) always
  · intro schedule fair n item queued
    have always : Kept (stateAt step {} schedule n) :=
      stateAt_invariant (I := Kept) (fun _ event kept => kept.step event) start_kept n
    apply eventually_of_rank (I := fun s => Kept s ∧ Queued item s) (fun s => s.delay item) _ _ _ fair ⟨always,queued⟩
    · exact fun s event kept => ⟨kept.1.step event,queued_step kept.2 event⟩
    · intro s event kept _ other
      right
      cases event with
      | offered access =>
        cases access with
        | read => exact offer_delay kept.1 kept.2 .read
        | write => exact offer_delay kept.1 kept.2 .write
      | turn exit => exact absurd trivial other
      | resumed item => rfl
      | interrupted item => rfl
    · intro s event kept open_ turns
      cases event with
      | turn exit => exact turn_delay kept.1 kept.2 open_ exit
      | _ => exact turns.elim

end

/-- A read queued while the daemon runs a batch of reads is overtaken by the write that follows. -/
theorem late_read_overtaken : ¬ ∀ inputs : List (Event Unit), EveryStep step ReadsFirst {} inputs := by
  intro always
  obtain ⟨_,_,_,_,_,_,_,first,_⟩ := always
    [.offered .read,.turn (),.turn (),.offered .read,.offered .write,.turn (),.turn (),.turn ()]
  have ran := first ⟨2,rfl⟩ 1 (by decide)
  revert ran
  decide

end DOQueues

end ApexLs.Server
