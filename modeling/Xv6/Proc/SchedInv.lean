import Xv6.Proc.Sched

/-! A process never runs on two processors: the thread that a processor executes tells who holds `p->lock` and whether
    the process is RUNNING. -/

namespace Xv6.Sched
open ProcTable (Slot State)

variable {C : Type} [DecidableEq C]

/-- A processor `c` with `c->proc = p` executes the thread: who holds `p->lock` and whether `p` is RUNNING. -/
def At (c : C) (x : Proc C) (p : Slot) : Thread → Prop
  | .loop _ => False
  | .back q => q = p ∧ x.lock = some c ∧ x.state ≠ .running
  | .entered ctx => Sys.stack ctx = some p ∧ (∀ n, ctx ≠ .sched p .exit n) ∧ x.lock = some c ∧ x.state = .running
  | .run q => q = p ∧ x.lock = none ∧ x.state = .running

/-- A process is on no processor, or on exactly one. -/
inductive Place (cpu : C → Cpu) (x : Proc C) (p : Slot) : Prop where
  | idle (off : ∀ c, (cpu c).proc ≠ some p) (lock : x.lock = none) (state : x.state ≠ .running)
  | on (c : C) (one : ∀ d, (cpu d).proc = some p → d = c) (proc : (cpu c).proc = some p)
      (thread : At c x p (cpu c).thread)

namespace Place
variable {cpu : C → Cpu} {x x' : Proc C} {y : Cpu} {c : C} {p q : Slot}

omit [DecidableEq C] in
theorem same (h : Place cpu x p) (lock : x'.lock = x.lock) (state : x'.state = .running ↔ x.state = .running) :
    Place cpu x' p := by
  cases h with
  | idle off hl hs => exact .idle off (lock.trans hl) (mt state.mp hs)
  | on c one proc thread =>
    refine .on c one proc ?_
    unfold At at thread ⊢
    split at thread <;> simp_all

theorem other (h : Place cpu x p) (old : (cpu c).proc ≠ some p) (new : y.proc ≠ some p) :
    Place (Function.update cpu c y) x p := by
  have back : ∀ d, (Function.update cpu c y d).proc = some p → (cpu d).proc = some p := by
    intro d hd
    by_cases hdc : d = c
    · subst hdc
      rw [Function.update_self] at hd
      exact absurd hd new
    · rwa [Function.update_of_ne hdc] at hd
  cases h with
  | idle off hl hs => exact .idle (fun d hd => off d (back d hd)) hl hs
  | on e one proc thread =>
    have hec : e ≠ c := fun he => old (he ▸ proc)
    refine .on e (fun d hd => one d (back d hd)) ?_ ?_ <;> rwa [Function.update_of_ne hec]

theorem move (one : ∀ d, (cpu d).proc = some p → d = c) (proc : y.proc = some p) (thread : At c x p y.thread) :
    Place (Function.update cpu c y) x p := by
  refine .on c ?_ (by rwa [Function.update_self]) (by rwa [Function.update_self])
  intro d hd
  by_contra hdc
  rw [Function.update_of_ne hdc] at hd
  exact hdc (one d hd)

theorem vacate (one : ∀ d, (cpu d).proc = some p → d = c) (proc : y.proc = none) (lock : x.lock = none)
    (state : x.state ≠ .running) : Place (Function.update cpu c y) x p := by
  refine .idle (fun d hd => ?_) lock state
  by_cases hdc : d = c
  · subst hdc
    rw [Function.update_self, proc] at hd
    cases hd
  · rw [Function.update_of_ne hdc] at hd
    exact hdc (one d hd)

omit [DecidableEq C] in
theorem off (h : Place cpu x p) (lock : x.lock = none) (state : x.state ≠ .running) (c : C) :
    (cpu c).proc ≠ some p := by
  cases h with
  | idle off _ _ => exact off c
  | on d _ _ thread =>
    unfold At at thread
    split at thread <;> simp_all

omit [DecidableEq C] in
theorem on_of_proc (h : Place cpu x p) (proc : (cpu c).proc = some p) :
    (∀ d, (cpu d).proc = some p → d = c) ∧ At c x p (cpu c).thread := by
  cases h with
  | idle off _ _ => exact absurd proc (off c)
  | on e one _ thread =>
    obtain rfl := one c proc
    exact ⟨one, thread⟩

end Place

/-- A context that may be switched to: `forkret` before the first `sched`, or what the last call outside `exit` has
    saved. -/
def Own (x : Proc C) (p : Slot) : Prop :=
  x.context = .forkret p ∧ x.calls = 0 ∨ ∃ call, call ≠ .exit ∧ x.context = .sched p call x.calls ∧ 0 < x.calls

structure Kept (x : Proc C) (p : Slot) : Prop where
  own : x.state = .used ∨ x.state = .sleeping ∨ x.state = .runnable → Own x p
  forker : x.state = .unused ∨ x.state = .used ∨ x.state = .zombie → x.np = none

structure Inv (s : Sys C) : Prop where
  place : ∀ p, Place s.cpu (s.proc p) p
  kept : ∀ p, Kept (s.proc p) p
  loop : ∀ c, (s.cpu c).proc = none → ∃ k, (s.cpu c).thread = .loop k
  context : ∀ c, (s.cpu c).proc ≠ none → (s.cpu c).context = (s.cpu c).proc
  -- the child of an unfinished `fork` belongs to that call alone
  child : ∀ p np, (s.proc p).np = some np → (s.proc np).state = .used
  parent : ∀ p q np, (s.proc p).np = some np → (s.proc q).np = some np → p = q

variable {s t : Sys C} {c : C} {p q : Slot}

omit [DecidableEq C] in
theorem inv_init (h : Init s) : Inv s where
  place := fun p => by
    refine .idle (fun c hc => ?_) (h.lock p) (fun hr => ?_)
    · rw [(h.cpu c).2] at hc
      cases hc
    · by_cases hp : p = s.initproc
      · rw [hp, h.first.1] at hr
        cases hr
      · rw [h.rest p hp] at hr
        cases hr
  kept := fun p => by
    refine ⟨fun hs => ?_, fun _ => h.np p⟩
    by_cases hp : p = s.initproc
    · rw [hp]
      exact Or.inl h.first.2
    · rw [h.rest p hp] at hs
      simp at hs
  loop := fun c _ => ⟨0, (h.cpu c).1⟩
  context := fun c hc => absurd (h.cpu c).2 hc
  child := fun p np hn => by rw [h.np] at hn; cases hn
  parent := fun p q np hn => by rw [h.np] at hn; cases hn

/-! ### What each step keeps -/

namespace Inv

omit [DecidableEq C] in
theorem on (inv : Inv s) (hp : (s.cpu c).proc = some p) :
    (∀ d, (s.cpu d).proc = some p → d = c) ∧ At c (s.proc p) p (s.cpu c).thread := (inv.place p).on_of_proc hp

omit [DecidableEq C] in
theorem busy (inv : Inv s) (h : ∀ k, (s.cpu c).thread ≠ .loop k) :
    ∃ p, (s.cpu c).proc = some p ∧ At c (s.proc p) p (s.cpu c).thread := by
  cases hp : (s.cpu c).proc with
  | none =>
    obtain ⟨k, hk⟩ := inv.loop c hp
    exact absurd hk (h k)
  | some p => exact ⟨p, rfl, (inv.on hp).2⟩

omit [DecidableEq C] in
theorem idle (inv : Inv s) {k : Nat} (h : (s.cpu c).thread = .loop k) : (s.cpu c).proc = none := by
  by_contra hp
  obtain ⟨p, hp⟩ := Option.ne_none_iff_exists'.mp hp
  have hat := (inv.on hp).2
  rw [h] at hat
  exact hat

omit [DecidableEq C] in
theorem running (inv : Inv s) (h : (s.cpu c).thread = .run q) :
    (s.cpu c).proc = some q ∧ (s.cpu c).context = some q ∧ (s.proc q).lock = none ∧ (s.proc q).state = .running := by
  obtain ⟨p, hp, hat⟩ := inv.busy (c := c) (fun k hk => by rw [h] at hk; cases hk)
  rw [h] at hat
  obtain ⟨rfl, hl, hr⟩ := hat
  exact ⟨hp, (inv.context c (by simp [hp])).trans hp, hl, hr⟩

omit [DecidableEq C] in
theorem children (inv : Inv s) {x : Proc C} (np : x.np = (s.proc p).np)
    (used : (s.proc p).state = .used → x.state = .used) :
    (∀ q n, ((s.setProc p x).proc q).np = some n → ((s.setProc p x).proc n).state = .used) ∧
    (∀ q r n, ((s.setProc p x).proc q).np = some n → ((s.setProc p x).proc r).np = some n → q = r) := by
  have back : ∀ q, ((s.setProc p x).proc q).np = (s.proc q).np := by
    intro q
    rw [Sys.setProc_proc]
    split
    · rename_i hq
      rw [hq, np]
    · rfl
  refine ⟨fun q n hn => ?_, fun q r n hq hr => inv.parent q r n (back q ▸ hq) (back r ▸ hr)⟩
  have hu := inv.child q n (back q ▸ hn)
  rw [Sys.setProc_proc]
  split
  · rename_i hnp
    exact used (hnp ▸ hu)
  · exact hu

theorem change (inv : Inv s) {x : Proc C} {y : Cpu} (old : ∀ q, (s.cpu c).proc = some q → q = p)
    (new : ∀ q, y.proc = some q → q = p) (place : Place (Function.update s.cpu c y) x p) (kept : Kept x p)
    (np : x.np = (s.proc p).np) (used : (s.proc p).state = .used → x.state = .used)
    (loop : y.proc = none → ∃ k, y.thread = .loop k) (context : y.proc ≠ none → y.context = y.proc) :
    Inv ((s.setProc p x).setCpu c y) where
  place := fun q => by
    rw [Sys.setCpu_proc, Sys.setProc_proc]
    split
    · rename_i hq
      exact hq ▸ place
    · rename_i hq
      exact (inv.place q).other (fun h => hq (old q h)) (fun h => hq (new q h))
  kept := fun q => by
    rw [Sys.setCpu_proc, Sys.setProc_proc]
    split
    · rename_i hq
      exact hq ▸ kept
    · exact inv.kept q
  loop := fun d => by
    rw [Sys.setCpu_cpu]
    split
    · exact loop
    · exact inv.loop d
  context := fun d => by
    rw [Sys.setCpu_cpu]
    split
    · exact context
    · exact inv.context d
  child := (inv.children np used).1
  parent := (inv.children np used).2

omit [DecidableEq C] in
theorem remote (inv : Inv s) {x : Proc C} (hx : Sys.Remote s q x) :
    Inv (s.setProc q x) := by
  have hrec : Place s.cpu x q ∧ Kept x q ∧ x.np = (s.proc q).np ∧ ((s.proc q).state = .used → x.state = .used) := by
    cases hx with
    | wake hs =>
      refine ⟨(inv.place q).same rfl (by simp [hs]), ⟨fun _ => ?_, fun h => by simp at h⟩, rfl, by simp [hs]⟩
      exact (inv.kept q).own (Or.inr (Or.inl hs))
    | free hs =>
      refine ⟨(inv.place q).same rfl ?_, ⟨fun h => by simp at h, fun _ => ?_⟩, rfl, ?_⟩
      · rcases hs with hs | hs <;> simp [hs]
      · exact (inv.kept q).forker (by rcases hs with hs | hs <;> simp [hs])
      · rcases hs with hs | hs <;> simp [hs]
  obtain ⟨place, kept, np, used⟩ := hrec
  refine ⟨fun p => ?_, fun p => ?_, inv.loop, inv.context, (inv.children np used).1, (inv.children np used).2⟩
  · rw [Sys.setProc_proc]
    split
    · rename_i hp
      exact hp ▸ place
    · exact inv.place p
  · rw [Sys.setProc_proc]
    split
    · rename_i hp
      exact hp ▸ kept
    · exact inv.kept p

theorem goto_loop (inv : Inv s) {k k' : Nat} (h : (s.cpu c).thread = .loop k) : Inv (s.goto c (.loop k')) := by
  have hp := inv.idle h
  have hs : s.setProc s.initproc (s.proc s.initproc) = s := by simp [Sys.setProc]
  have hch := inv.change (c := c) (p := s.initproc) (x := s.proc s.initproc)
    (y := { s.cpu c with thread := .loop k' }) (by simp [hp]) (by simp [hp])
    ((inv.place _).other (by simp [hp]) (by simp [hp])) (inv.kept _) rfl id (fun _ => ⟨k', rfl⟩) (by simp [hp])
  rwa [hs] at hch

theorem entering (inv : Inv s) (h : (s.cpu c).thread = .loop p.val) (hl : (s.proc p).lock = none)
    (hr : (s.proc p).state = .runnable) : Inv (s.entering c p) := by
  have hp := inv.idle h
  have off := (inv.place p).off hl (by simp [hr])
  refine inv.change (by simp [hp]) (by simp) (.move (fun d hd => absurd hd (off d)) rfl ?_)
    ⟨by simp, by simp⟩ rfl (by simp [hr]) (by simp) (by simp)
  -- the context is the process's own, and not the one that `exit` has left
  rcases (inv.kept p).own (Or.inr (Or.inr hr)) with ⟨hctx, -⟩ | ⟨call, hcall, hctx, -⟩
  · exact ⟨by rw [hctx]; rfl, by simp [hctx], rfl, rfl⟩
  · exact ⟨by rw [hctx]; rfl, fun n hn => by rw [hctx] at hn; cases hn; exact hcall rfl, rfl, rfl⟩

theorem letGo (inv : Inv s) (h : (s.cpu c).thread = .back p) : Inv (s.letGo c p) := by
  obtain ⟨q, hq, hat⟩ := inv.busy (c := c) (fun k hk => by rw [h] at hk; cases hk)
  rw [h] at hat
  obtain ⟨rfl, hl, hs⟩ := hat
  refine inv.change (fun r hr => ?_) (by simp) (.vacate (inv.on hq).1 rfl rfl hs)
    ⟨(inv.kept p).own, (inv.kept p).forker⟩ rfl id (fun _ => ⟨_, rfl⟩) (by simp)
  exact Option.some.inj (hr.symm.trans hq)

theorem resume (inv : Inv s) {ctx : Context} {chan : Option Nat} (h : (s.cpu c).thread = .entered ctx)
    (hstack : Sys.stack ctx = some q) (hpq : ctx = .forkret q ∧ (s.cpu c).proc = some p ∨ q = p) :
    Inv ((s.setProc p { s.proc p with chan, lock := none }).goto c (.run q)) := by
  obtain ⟨r, hr, hat⟩ := inv.busy (c := c) (fun k hk => by rw [h] at hk; cases hk)
  rw [h] at hat
  obtain ⟨hst, -, hl, hs⟩ := hat
  -- the stack, `c->proc` and the local variable are the same process
  obtain rfl : q = r := Option.some.inj (hstack.symm.trans hst)
  obtain rfl : q = p := by
    rcases hpq with ⟨-, hp⟩ | hp
    · exact Option.some.inj (hr.symm.trans hp)
    · exact hp
  refine inv.change (y := { s.cpu c with thread := .run q }) (fun r hr' => Option.some.inj (hr'.symm.trans hr))
    (fun r hr' => Option.some.inj (hr'.symm.trans hr)) (.move (inv.on hr).1 hr ⟨rfl, rfl, hs⟩)
    ⟨(inv.kept q).own, (inv.kept q).forker⟩ rfl id (fun hn => ?_) (inv.context c)
  rw [hr] at hn
  cases hn

theorem leaving (inv : Inv s) {k r : Slot} {call : Call} {state : State} {chan : Option Nat}
    (h : (s.cpu c).thread = .run r) (hp : (s.cpu c).proc = some p) (hk : (s.cpu c).context = some k)
    (hstate : state = .runnable ∧ call ≠ .exit ∨ state = .sleeping ∧ call ≠ .exit ∨
      state = .zombie ∧ (s.proc p).np = none) :
    Inv (s.leaving c p k call state chan) := by
  obtain ⟨hr, hctx, -, hrun⟩ := inv.running h
  obtain rfl : r = p := Option.some.inj (hr.symm.trans hp)
  obtain rfl : r = k := Option.some.inj (hctx.symm.trans hk)
  have hne : state ≠ .running := by rcases hstate with ⟨rfl, -⟩ | ⟨rfl, -⟩ | ⟨rfl, -⟩ <;> simp
  refine inv.change (y := { s.cpu c with thread := .back r }) (fun q hq => Option.some.inj (hq.symm.trans hp))
    (fun q hq => Option.some.inj (hq.symm.trans hp)) (.move (inv.on hp).1 hp ⟨rfl, rfl, hne⟩)
    ⟨fun hs => ?_, fun hs => ?_⟩ rfl (by simp [hrun]) (fun hn => ?_) (inv.context c)
  · refine Or.inr ⟨call, ?_, rfl, Nat.succ_pos _⟩
    rcases hstate with ⟨-, hc⟩ | ⟨-, hc⟩ | ⟨rfl, -⟩
    · exact hc
    · exact hc
    · simp at hs
  · rcases hstate with ⟨rfl, -⟩ | ⟨rfl, -⟩ | ⟨-, hn⟩
    · simp at hs
    · simp at hs
    · exact hn
  · rw [hp] at hn
    cases hn

omit [DecidableEq C] in
theorem forall_pair {Q : Slot → Prop} (np p : Slot) (hnp : Q np) (hp : Q p) (hrest : ∀ r, r ≠ np → r ≠ p → Q r)
    (r : Slot) : Q r := by
  by_cases h1 : r = np
  · exact h1 ▸ hnp
  · by_cases h2 : r = p
    · exact h2 ▸ hp
    · exact hrest r h1 h2

omit [DecidableEq C] in
theorem forking (inv : Inv s) {np : Slot} (h : (s.cpu c).thread = .run q) (hp : (s.cpu c).proc = some p)
    (hn : (s.proc p).np = none) (hu : (s.proc np).state = .unused) : Inv (s.forking p np) := by
  obtain ⟨hq, -, -, hrun⟩ := inv.running h
  obtain rfl : q = p := Option.some.inj (hq.symm.trans hp)
  have hne : np ≠ q := fun he => by rw [he, hrun] at hu; cases hu
  -- nobody has the slot as a child yet
  have fresh : ∀ r n, (s.proc r).np = some n → n ≠ np := fun r n hr he => by
    have := inv.child r n hr
    rw [he, hu] at this
    cases this
  have hnp : (s.forking q np).proc np =
      { s.proc np with state := .used, context := .forkret np, np := none, calls := 0 } := by
    simp [Sys.forking, hne]
  have hself : (s.forking q np).proc q = { s.proc q with np := some np } := by
    simp [Sys.forking, hne.symm]
  have hrest : ∀ r, r ≠ np → r ≠ q → (s.forking q np).proc r = s.proc r := fun r h1 h2 => by
    simp [Sys.forking, h1, h2]
  have hcpu : (s.forking q np).cpu = s.cpu := rfl
  refine ⟨forall_pair np q ?_ ?_ fun r h1 h2 => ?_, forall_pair np q ?_ ?_ fun r h1 h2 => ?_, inv.loop, inv.context,
    fun r n hr => ?_, fun r r' n hr hr' => ?_⟩
  · rw [hcpu, hnp]
    exact (inv.place np).same rfl (by simp [hu])
  · rw [hcpu, hself]
    exact (inv.place q).same rfl Iff.rfl
  · rw [hcpu, hrest r h1 h2]
    exact inv.place r
  · rw [hnp]
    exact ⟨fun _ => Or.inl ⟨rfl, rfl⟩, fun _ => rfl⟩
  · rw [hself]
    exact ⟨(inv.kept q).own, fun hs => by simp [hrun] at hs⟩
  · rw [hrest r h1 h2]
    exact inv.kept r
  · by_cases h1 : n = np
    · rw [h1, hnp]
    · have hold : (s.proc r).np = some n := by
        by_cases h2 : r = np
        · rw [h2, hnp] at hr
          cases hr
        · by_cases h3 : r = q
          · rw [h3, hself] at hr
            exact absurd (Option.some.inj hr).symm h1
          · rwa [hrest r h2 h3] at hr
      have hused := inv.child r n hold
      have h2 : n ≠ q := fun he => by rw [he, hrun] at hused; cases hused
      rw [hrest n h1 h2]
      exact hused
  · have hold : ∀ r, ((s.forking q np).proc r).np = some n → r = q ∧ n = np ∨ (s.proc r).np = some n := by
      intro r hr
      by_cases h2 : r = np
      · rw [h2, hnp] at hr
        cases hr
      · by_cases h3 : r = q
        · rw [h3, hself] at hr
          exact Or.inl ⟨h3, (Option.some.inj hr).symm⟩
        · rw [hrest r h2 h3] at hr
          exact Or.inr hr
    rcases hold r hr with ⟨h1, h2⟩ | h1 <;> rcases hold r' hr' with ⟨h3, h4⟩ | h3
    · rw [h1, h3]
    · exact absurd h2 (fresh r' n h3)
    · exact absurd h4 (fresh r n h1)
    · exact inv.parent r r' n h1 h3

omit [DecidableEq C] in
theorem starting (inv : Inv s) {np : Slot} (h : (s.cpu c).thread = .run q) (hp : (s.cpu c).proc = some p)
    (hn : (s.proc p).np = some np) : Inv (s.starting p np) := by
  obtain ⟨hq, -, -, hrun⟩ := inv.running h
  obtain rfl : q = p := Option.some.inj (hq.symm.trans hp)
  have hu := inv.child q np hn
  have hne : np ≠ q := fun he => by rw [he, hrun] at hu; cases hu
  have hnp : (s.starting q np).proc np = { s.proc np with state := .runnable } := by
    simp [Sys.starting, hne]
  have hself : (s.starting q np).proc q = { s.proc q with np := none } := by
    simp [Sys.starting, hne.symm]
  have hrest : ∀ r, r ≠ np → r ≠ q → (s.starting q np).proc r = s.proc r := fun r h1 h2 => by
    simp [Sys.starting, h1, h2]
  have hcpu : (s.starting q np).cpu = s.cpu := rfl
  -- the other forks under way are those from before
  have hold : ∀ r n, ((s.starting q np).proc r).np = some n → r ≠ q ∧ (s.proc r).np = some n := by
    intro r n hr
    by_cases h2 : r = q
    · rw [h2, hself] at hr
      cases hr
    · by_cases h1 : r = np
      · rw [h1, hnp] at hr
        exact ⟨h2, h1 ▸ hr⟩
      · rw [hrest r h1 h2] at hr
        exact ⟨h2, hr⟩
  refine ⟨forall_pair np q ?_ ?_ fun r h1 h2 => ?_, forall_pair np q ?_ ?_ fun r h1 h2 => ?_, inv.loop, inv.context,
    fun r n hr => ?_, fun r r' n hr hr' => inv.parent r r' n (hold r n hr).2 (hold r' n hr').2⟩
  · rw [hcpu, hnp]
    exact (inv.place np).same rfl (by simp [hu])
  · rw [hcpu, hself]
    exact (inv.place q).same rfl Iff.rfl
  · rw [hcpu, hrest r h1 h2]
    exact inv.place r
  · rw [hnp]
    exact ⟨fun _ => (inv.kept np).own (Or.inl hu), fun hs => by simp at hs⟩
  · rw [hself]
    exact ⟨(inv.kept q).own, fun _ => rfl⟩
  · rw [hrest r h1 h2]
    exact inv.kept r
  · obtain ⟨hrq, hr⟩ := hold r n hr
    have hused := inv.child r n hr
    have h1 : n ≠ np := fun he => hrq (inv.parent r q np (he ▸ hr) hn)
    have h2 : n ≠ q := fun he => by rw [he, hrun] at hused; cases hused
    rw [hrest n h1 h2]
    exact hused

theorem yield (inv : Inv s) (h : s.yield c = .ok t) : Inv t := by
  obtain ⟨p, hp, h⟩ := Lib.bind_eq_ok.mp h
  obtain ⟨⟨r, hr⟩, hp⟩ := Sys.myproc_ok hp
  obtain ⟨-, k, hk, rfl⟩ := Sys.giveUp_cases h
  exact inv.leaving hr hp hk (Or.inl ⟨rfl, by simp⟩)

theorem sleep (inv : Inv s) {chan : Nat} (h : s.sleep c chan = .ok t) : Inv t := by
  obtain ⟨p, hp, h⟩ := Lib.bind_eq_ok.mp h
  obtain ⟨⟨r, hr⟩, hp⟩ := Sys.myproc_ok hp
  split at h
  · cases h
  obtain ⟨-, k, hk, rfl⟩ := Sys.giveUp_cases h
  exact inv.leaving hr hp hk (Or.inr (Or.inl ⟨rfl, by simp⟩))

theorem exit (inv : Inv s) (h : s.exit c = .ok t) : Inv t := by
  obtain ⟨p, hp, h⟩ := Lib.bind_eq_ok.mp h
  obtain ⟨⟨r, hr⟩, hp⟩ := Sys.myproc_ok hp
  split at h
  · cases h
  rename_i hn
  split at h
  · cases h
  obtain ⟨-, k, hk, rfl⟩ := Sys.giveUp_cases h
  exact inv.leaving hr hp hk (Or.inr (Or.inr ⟨rfl, not_not.mp hn⟩))

theorem step (inv : Inv s) {a : Action C} (h : Sched.step s a = .ok t) : Inv t := by
  cases a with
  | scheduler c =>
    rcases Sys.scheduler_cases h with ⟨k, k', hk, rfl⟩ | ⟨p, hc, hl, hr, rfl⟩ | ⟨p, hc, -, rfl⟩
    · exact inv.goto_loop hk
    · exact inv.entering hc hl hr
    · exact inv.letGo hc
  | resume c =>
    obtain ⟨ctx, p, q, chan, hc, hst, -, hpq, rfl⟩ := Sys.resume_cases h
    exact inv.resume hc hst hpq
  | yield c => exact inv.yield h
  | sleep c chan => exact inv.sleep h
  | exit c => exact inv.exit h
  | wakeup c chan q =>
    rcases Sys.wakeup_cases h with rfl | ⟨x, -, hx, rfl⟩
    · exact inv
    · exact inv.remote hx
  | kill c q =>
    rcases Sys.kill_cases h with rfl | ⟨x, -, hx, rfl⟩
    · exact inv
    · exact inv.remote hx
  | fork c np mem =>
    obtain ⟨-, hu, ⟨p, q, hq, hp, hn, rfl⟩ | ⟨x, hx, rfl⟩⟩ := Sys.fork_cases h
    · exact inv.forking hq hp hn hu
    · exact inv.remote hx
  | forked c =>
    obtain ⟨p, np, q, hq, hp, hn, -, rfl⟩ := Sys.forked_cases h
    exact inv.starting hq hp hn
  | wait c q =>
    obtain ⟨x, -, hx, rfl⟩ := Sys.wait_cases h
    exact inv.remote hx

end Inv

theorem entered_cases {a : Action C} {ctx : Context} (h : step s a = .ok t) (old : (s.cpu c).thread ≠ .entered ctx)
    (new : (t.cpu c).thread = .entered ctx) :
    ∃ p, (s.proc p).state = .runnable ∧ ctx = (s.proc p).context ∧ (t.cpu c).proc = some p := by
  -- a step of processor `d` that leaves it in a thread `th` enters nothing unless `th` does
  have stay : ∀ {u : Sys C} {d : C} {th : Thread}, u.cpu = s.cpu → (∀ x, th ≠ .entered x) →
      ((u.goto d th).cpu c).thread ≠ .entered ctx := by
    intro u d th hu hth
    rw [Sys.goto_cpu, hu]
    split
    · exact hth ctx
    · exact old
  have none : t.cpu ≠ s.cpu := fun he => old (he ▸ new)
  have left : ∀ {d : C} {p : Slot} {call : Call} {state : State} {chan : Option Nat},
      s.giveUp d p call state chan ≠ .ok t := fun hg => by
    obtain ⟨-, k, -, rfl⟩ := Sys.giveUp_cases hg
    exact stay rfl (by simp) new
  cases a with
  | scheduler d =>
    rcases Sys.scheduler_cases h with ⟨k, k', -, rfl⟩ | ⟨p, -, -, hr, rfl⟩ | ⟨p, -, -, rfl⟩
    · exact absurd new (stay rfl (by simp))
    · by_cases hcd : c = d
      · subst hcd
        simp only [Sys.entering, Sys.setCpu_cpu, if_pos] at new ⊢
        exact ⟨p, hr, (Thread.entered.inj new).symm, rfl⟩
      · simp only [Sys.entering, Sys.setCpu_cpu, if_neg hcd] at new
        exact absurd new old
    · simp only [Sys.letGo, Sys.setCpu_cpu] at new
      split at new
      · cases new
      · exact absurd new old
  | resume d =>
    obtain ⟨x, p, q, chan, -, -, -, -, rfl⟩ := Sys.resume_cases h
    exact absurd new (stay rfl (by simp))
  | yield d =>
    obtain ⟨p, -, h⟩ := Lib.bind_eq_ok.mp h
    exact absurd h left
  | sleep d chan =>
    obtain ⟨p, -, h⟩ := Lib.bind_eq_ok.mp h
    split at h
    · cases h
    · exact absurd h left
  | exit d =>
    obtain ⟨p, -, h⟩ := Lib.bind_eq_ok.mp h
    split at h
    · cases h
    split at h
    · cases h
    · exact absurd h left
  | wakeup d chan q =>
    rcases Sys.wakeup_cases h with rfl | ⟨x, -, -, rfl⟩ <;> exact absurd rfl none
  | kill d q =>
    rcases Sys.kill_cases h with rfl | ⟨x, -, -, rfl⟩ <;> exact absurd rfl none
  | fork d np mem =>
    obtain ⟨-, -, ⟨p, q, -, -, -, rfl⟩ | ⟨x, -, rfl⟩⟩ := Sys.fork_cases h <;> exact absurd rfl none
  | forked d =>
    obtain ⟨p, np, q, -, -, -, -, rfl⟩ := Sys.forked_cases h
    exact absurd rfl none
  | wait d q =>
    obtain ⟨x, -, -, rfl⟩ := Sys.wait_cases h
    exact absurd rfl none

/-! ### The panics -/

def Harmless (e : Refusal) : Prop := e = .disabled ∨ e = .initExiting

namespace Inv

theorem release_held {x : Sys C} (h : (x.proc p).lock = some c) :
    x.release c p = .ok (x.setProc p { x.proc p with lock := none }) := if_pos h

theorem scheduler_error (inv : Inv s) {e : Refusal} (h : s.scheduler c = .error e) : Harmless e := by
  unfold Sys.scheduler at h
  split at h
  · split at h
    · split at h
      · cases h
        exact Or.inl rfl
      split at h
      · rename_i k _ hlt _ hr
        unfold Sys.switchTo at h
        split at h
        · rename_i hst
          rcases (inv.kept ⟨k, hlt⟩).own (Or.inr (Or.inr hr)) with ⟨hctx, -⟩ | ⟨call, -, hctx, -⟩ <;>
            (rw [hctx] at hst; cases hst)
        · cases h
      · cases h
    · cases h
  · rename_i p hc
    obtain ⟨q, -, hat⟩ := inv.busy (c := c) (fun k hk => by rw [hc] at hk; cases hk)
    rw [hc] at hat
    obtain ⟨rfl, hl, -⟩ := hat
    rw [release_held hl] at h
    cases h
  · cases h
    exact Or.inl rfl

theorem resume_error (inv : Inv s) {e : Refusal} (h : s.resume c = .error e) : Harmless e := by
  -- what holds of a processor that has entered a process
  have here : ∀ {ctx}, (s.cpu c).thread = .entered ctx → ∃ p, (s.cpu c).proc = some p ∧
      Sys.stack ctx = some p ∧ (∀ n, ctx ≠ .sched p .exit n) ∧ (s.proc p).lock = some c := by
    intro ctx hc
    obtain ⟨p, hp, hat⟩ := inv.busy (c := c) (fun k hk => by rw [hc] at hk; cases hk)
    rw [hc] at hat
    exact ⟨p, hp, hat.1, hat.2.1, hat.2.2.1⟩
  unfold Sys.resume at h
  split at h
  · rename_i hc
    obtain ⟨p, hp, -, -, hl⟩ := here hc
    simp only [hp] at h
    rw [release_held hl] at h
    cases h
  · rename_i hc
    obtain ⟨p, -, hst, -, hl⟩ := here hc
    cases hst
    rw [release_held hl] at h
    cases h
  · rename_i hc
    obtain ⟨p, -, hst, -, hl⟩ := here hc
    cases hst
    rw [release_held (by simpa using hl)] at h
    cases h
  · rename_i n hc
    obtain ⟨p, -, hst, hne, -⟩ := here hc
    cases hst
    exact absurd rfl (hne n)
  · cases h
    exact Or.inl rfl

omit [DecidableEq C] in
theorem myproc_error (inv : Inv s) {e : Refusal} (h : s.myproc c = .error e) : Harmless e := by
  unfold Sys.myproc at h
  split at h
  · rename_i hc
    simp only [(inv.running hc).1] at h
    cases h
  · cases h
    exact Or.inl rfl

theorem giveUp_error (inv : Inv s) {e : Refusal} {call : Call} {state : State} {chan : Option Nat}
    (hp : s.myproc c = .ok p) (hstate : state ≠ .running) (h : s.giveUp c p call state chan = .error e) :
    Harmless e := by
  obtain ⟨⟨q, hq⟩, hp⟩ := Sys.myproc_ok hp
  unfold Sys.giveUp at h
  split at h
  · cases h
    exact Or.inl rfl
  · unfold Sys.sched at h
    simp [hstate, (inv.running hq).2.1] at h

omit [DecidableEq C] in
theorem bind_error (inv : Inv s) {e : Refusal} {f : Slot → Except Refusal (Sys C)}
    (hf : ∀ p, s.myproc c = .ok p → f p = .error e → Harmless e) (h : s.myproc c >>= f = .error e) : Harmless e := by
  cases hp : s.myproc c with
  | error e' =>
    rw [hp] at h
    cases h
    exact inv.myproc_error hp
  | ok p =>
    rw [hp] at h
    exact hf p hp h

theorem step_error (inv : Inv s) {a : Action C} {e : Refusal} (h : Sched.step s a = .error e) : Harmless e := by
  cases a with
  | scheduler c => exact inv.scheduler_error h
  | resume c => exact inv.resume_error h
  | yield c => exact inv.bind_error (fun p hp hf => inv.giveUp_error hp (by simp) hf) h
  | sleep c chan =>
    refine inv.bind_error (fun p hp hf => ?_) h
    split at hf
    · cases hf
      exact Or.inl rfl
    · exact inv.giveUp_error hp (by simp) hf
  | exit c =>
    refine inv.bind_error (fun p hp hf => ?_) h
    split at hf
    · cases hf
      exact Or.inl rfl
    split at hf
    · cases hf
      exact Or.inr rfl
    · exact inv.giveUp_error hp (by simp) hf
  | wakeup c chan q =>
    simp only [Sched.step, Sys.wakeup] at h
    split at h
    · cases h
      exact Or.inl rfl
    split at h
    · cases h
    split at h
    · cases h
      exact Or.inl rfl
    split at h <;> cases h
  | kill c q =>
    refine inv.bind_error (fun p hp hf => ?_) h
    split at hf
    · cases hf
      exact Or.inl rfl
    split at hf <;> cases hf
  | fork c np mem =>
    refine inv.bind_error (fun p hp hf => ?_) h
    split at hf
    · cases hf
      exact Or.inl rfl
    split at hf <;> cases hf
  | forked c =>
    refine inv.bind_error (fun p hp hf => ?_) h
    split at hf
    · cases hf
      exact Or.inl rfl
    split at hf
    · cases hf
      exact Or.inl rfl
    · cases hf
  | wait c q =>
    refine inv.bind_error (fun p hp hf => ?_) h
    split at hf
    · cases hf
      exact Or.inl rfl
    · cases hf

omit [DecidableEq C] in
theorem running_iff (inv : Inv s) (hl : (s.proc p).lock = none) :
    (s.proc p).state = .running ↔ ∃! c, (s.cpu c).proc = some p := by
  constructor
  · intro hr
    cases inv.place p with
    | idle _ _ hs => exact absurd hr hs
    | on c one proc _ => exact ⟨c, proc, one⟩
  · rintro ⟨c, hc, -⟩
    by_contra hr
    exact (inv.place p).off hl hr c hc

end Inv

/-- A process is on at most one processor, and RUNNING exactly if it is on one, while its lock is free; it is switched
    to only when RUNNABLE, at the context of its own last `sched` or at `forkret`; and `sched`, `release` and `exit`
    do not panic. -/
theorem runs_on_one_cpu (h : Lib.Reach Init step (fun _ _ => True) s) :
    (∀ p c d, (s.cpu c).proc = some p → (s.cpu d).proc = some p → c = d) ∧
    (∀ p, (s.proc p).lock = none → ((s.proc p).state = .running ↔ ∃! c, (s.cpu c).proc = some p)) ∧
    (∀ a t c ctx, step s a = .ok t → (s.cpu c).thread ≠ .entered ctx → (t.cpu c).thread = .entered ctx →
      ∃ p, (t.cpu c).proc = some p ∧ ctx = (s.proc p).context ∧ Own (s.proc p) p ∧
        (s.proc p).state = .runnable ∧ (s.proc p).state ≠ .zombie ∧ (s.proc p).state ≠ .unused) ∧
    ∀ a e, step s a = .error e → e = .disabled ∨ e = .initExiting := by
  have inv : Inv s := h.invariant (fun _ => inv_init) (fun _ _ _ inv _ hs => inv.step hs)
  refine ⟨fun p c d hc hd => (inv.on hd).1 c hc, fun p => inv.running_iff, ?_, fun a e => inv.step_error⟩
  intro a t c ctx hs old new
  obtain ⟨p, hr, hctx, hp⟩ := entered_cases hs old new
  exact ⟨p, hp, hctx, (inv.kept p).own (Or.inr (Or.inr hr)), hr, by simp [hr], by simp [hr]⟩

def first : Slot := ⟨0, zero_lt_NPROC⟩
def second : Slot := ⟨1, one_lt_NPROC⟩

def booted : Sys Bool where
  proc := fun p =>
    { state := if p = first then .runnable else .unused, lock := none, chan := none,
      context := if p = first then .forkret first else .zero, np := none, calls := 0 }
  cpu := fun _ => { proc := none, context := none, thread := .loop 0 }
  initproc := first

theorem init_booted : Init booted where
  cpu := fun _ => ⟨rfl, rfl⟩
  lock := fun _ => rfl
  np := fun _ => rfl
  first := ⟨rfl, rfl, rfl⟩
  rest := fun _ hp => if_neg hp

def handover : List (Action Bool) :=
  [.scheduler true, .resume true, .fork true second true, .forked true, .scheduler false, .yield true]

theorem runs_on_one_cpu_handover :
    ∃ s : Sys Bool, Lib.Reach Init step (fun _ _ => True) s ∧
      ((s.cpu true).thread = .back first ∧ (s.proc first).lock = some true ∧ (s.cpu false).thread = .loop 1) ∧
      (∀ p c d, (s.cpu c).proc = some p → (s.cpu d).proc = some p → c = d) ∧
      (∀ a t c ctx, step s a = .ok t → (s.cpu c).thread ≠ .entered ctx → (t.cpu c).thread = .entered ctx →
        ∃ p, (t.cpu c).proc = some p ∧ ctx = (s.proc p).context) := by
  have hrun : (Lib.run step (fun _ _ => true) booted handover).any (fun s =>
      decide ((s.cpu true).thread = .back first ∧ (s.proc first).lock = some true ∧ (s.cpu false).thread = .loop 1)) = true := by
    decide +kernel
  obtain ⟨s, hs, hat⟩ := (Option.any_eq_true _ _).mp hrun
  have hreach : Lib.Reach Init step (fun _ _ => True) s :=
    Lib.Reach.of_run (fun _ _ _ => trivial) handover (.init init_booted) hs
  obtain ⟨hone, -, hswitch, -⟩ := runs_on_one_cpu hreach
  refine ⟨s, hreach, of_decide_eq_true hat, hone, fun a t c ctx ha hold hnew => ?_⟩
  obtain ⟨p, hp, hctx, -⟩ := hswitch a t c ctx ha hold hnew
  exact ⟨p, hp, hctx⟩

/-- A `p->lock` that is held is released by the next step of its holder. -/
theorem Inv.released {d : C} (inv : Inv s) (hl : (s.proc p).lock = some d) :
    ∃ a t, a ∈ [Action.scheduler d, .resume d] ∧ Sched.step s a = .ok t ∧ (t.proc p).lock = none := by
  cases inv.place p with
  | idle _ hfree _ => rw [hl] at hfree; cases hfree
  | on c _ hp hat =>
    cases hth : (s.cpu c).thread with
    | loop k => rw [hth] at hat; exact hat.elim
    | run q =>
      rw [hth] at hat
      rw [hat.2.1] at hl
      cases hl
    | back q =>
      rw [hth] at hat
      obtain ⟨rfl, hlock, -⟩ := hat
      cases hl.symm.trans hlock
      exact ⟨.scheduler d, s.letGo d q, by simp, by simp [Sched.step, Sys.scheduler, hth, release_held hl]; rfl,
        by simp [Sys.letGo]⟩
    | entered ctx =>
      rw [hth] at hat
      obtain ⟨hst, hne, hlock, -⟩ := hat
      cases hl.symm.trans hlock
      cases ctx with
      | zero => cases hst
      | forkret q =>
        exact ⟨.resume d, _, by simp, by simp [Sched.step, Sys.resume, hth, hp, release_held hl]; rfl, by simp⟩
      | sched q call n =>
        cases hst
        cases call with
        | exit => exact absurd rfl (hne n)
        | yield => exact ⟨.resume d, _, by simp, by simp [Sched.step, Sys.resume, hth, release_held hl]; rfl, by simp⟩
        | sleep => exact ⟨.resume d, _, by simp, by simp [Sched.step, Sys.resume, hth, Sys.release, hl]; rfl, by simp⟩

/-- Whatever the processors have done, each of them can go on, or waits in its scheduler for the lock of a process that
    the processor which holds it releases in its next step. -/
theorem no_deadlock (h : Lib.Reach Init step (fun _ _ => True) s) (c : C) :
    (∃ a t, a ∈ [Action.scheduler c, .resume c, .yield c] ∧ step s a = .ok t) ∨
    ∃ (p : Slot) (d : C), (s.cpu c).thread = .loop p ∧ (s.proc p).lock = some d ∧
      ∃ a t, a ∈ [Action.scheduler d, .resume d] ∧ step s a = .ok t ∧ (t.proc p).lock = none := by
  have inv : Inv s := h.invariant (fun _ => inv_init) (fun _ _ _ inv _ hs => inv.step hs)
  -- who holds a lock can release it
  have held : ∀ p, (s.proc p).lock = some c → ∃ a t, a ∈ [Action.scheduler c, .resume c, .yield c] ∧ step s a = .ok t := by
    intro p hl
    obtain ⟨a, t, ha, hs, -⟩ := inv.released hl
    exact ⟨a, t, List.mem_of_mem_dropLast ha, hs⟩
  cases hth : (s.cpu c).thread with
  | loop k =>
    cases hs : s.scheduler c with
    | ok t => exact Or.inl ⟨.scheduler c, t, by simp, hs⟩
    | error e =>
      have he := inv.scheduler_error hs
      simp only [Sys.scheduler, hth] at hs
      split_ifs at hs with hk hl hr
      · obtain ⟨d, hd⟩ := Option.ne_none_iff_exists'.mp hl
        exact Or.inr ⟨⟨k, hk⟩, d, rfl, hd, inv.released hd⟩
      · unfold Sys.switchTo at hs
        split at hs <;> cases hs
        simp [Harmless] at he
  | run q =>
    obtain ⟨hp, hctx, hl, -⟩ := inv.running hth
    have hm : s.myproc c = .ok q := by simp [Sys.myproc, hth, hp]
    exact Or.inl ⟨.yield c, _, by simp, by simp [step, Sys.yield, hm, Sys.giveUp, hl, Sys.sched, hctx, bind, Except.bind]; rfl⟩
  | back q =>
    obtain ⟨p, -, hat⟩ := inv.busy (c := c) (by simp [hth])
    rw [hth] at hat
    exact Or.inl (held p hat.2.1)
  | entered ctx =>
    obtain ⟨p, -, hat⟩ := inv.busy (c := c) (by simp [hth])
    rw [hth] at hat
    exact Or.inl (held p hat.2.2.1)

theorem no_deadlock_waiting : ∃ s : Sys Bool, (s.cpu false).thread = .loop first ∧ (s.proc first).lock = some true ∧
    ∃ a t, step s a = .ok t := by
  have hrun : (Lib.run step (fun _ _ => true) booted [.scheduler true]).any (fun s =>
      decide ((s.cpu false).thread = .loop first ∧ (s.proc first).lock = some true)) = true := by decide +kernel
  obtain ⟨s, hs, hat⟩ := (Option.any_eq_true _ _).mp hrun
  have hreach : Lib.Reach Init step (fun _ _ => True) s :=
    Lib.Reach.of_run (fun _ _ _ => trivial) [.scheduler true] (.init init_booted) hs
  obtain ⟨hth, hl⟩ := of_decide_eq_true hat
  refine ⟨s, hth, hl, ?_⟩
  rcases no_deadlock hreach false with ⟨a, t, -, ha⟩ | ⟨p, d, -, -, a, t, -, ha, -⟩
  · exact ⟨a, t, ha⟩
  · exact ⟨a, t, ha⟩

end Xv6.Sched
