import Mathlib.Data.List.Perm.Basic
import Mathlib.Data.Set.Basic

/-!
# Stateful programs with exceptions

A program returns a value and a state, or throws, in which case the writes made before the throw
stay, or gets stuck: it loops forever or runs into undefined behaviour. `Outcome.Holds` is partial
correctness, and `Program.Keeps` says that a program keeps an invariant.
-/

namespace Semantics

universe u v

/-- How a run of a program ends. -/
inductive Outcome (σ : Type u) (α : Type v)
  /-- The program returns `value` and leaves `state`. -/
  | done (value : α) (state : σ)
  /-- The program throws; the writes it made so far are in `state`. -/
  | thrown (state : σ)
  /-- The program does not return, or its behaviour is undefined. -/
  | stuck

/-- A program over the state `σ` returning `α`. -/
abbrev Program (σ : Type u) (α : Type v) := σ → Outcome σ α

/-- What can go wrong in code that writes nothing. -/
inductive Fault
  | exception
  | undefined
  deriving DecidableEq, Repr

variable {σ τ : Type u} {α β : Type v} {ι : Type*}

namespace Outcome

variable {f : α → σ → Outcome σ β}

/-- Continue a finished run; a failed run stays as it is. -/
def andThen : Outcome σ α → (α → σ → Outcome σ β) → Outcome σ β
  | done a s, f => f a s
  | thrown s, _ => thrown s
  | stuck, _ => stuck

/-- Rename the state of an outcome. -/
def mapState (f : σ → τ) : Outcome σ α → Outcome τ α
  | done a s => done a (f s)
  | thrown s => thrown (f s)
  | stuck => stuck

@[simp] theorem andThen_done (a : α) (s : σ) : (done a s).andThen f = f a s := rfl

@[simp] theorem andThen_thrown (s : σ) : (thrown s : Outcome σ α).andThen f = thrown s := rfl

@[simp] theorem andThen_stuck : (stuck : Outcome σ α).andThen f = stuck := rfl

theorem andThen_eq_done {o : Outcome σ α} {b : β} {s : σ} :
    o.andThen f = done b s ↔ ∃ a s', o = done a s' ∧ f a s' = done b s := by
  constructor
  · intro h
    cases o with
    | done a s' => exact ⟨a, s', rfl, h⟩
    | thrown s' => cases h
    | stuck => cases h
  · rintro ⟨a, s', rfl, h⟩
    exact h

@[simp] theorem mapState_done (f : σ → τ) (a : α) (s : σ) : (done a s).mapState f = done a (f s) :=
  rfl

/-- `o` meets `Q` if it is done and `E` if it threw; a stuck outcome meets everything. -/
def Holds (Q : α → σ → Prop) (E : σ → Prop) : Outcome σ α → Prop
  | done a s => Q a s
  | thrown s => E s
  | stuck => True

/-- The state `s` can be observed after a run that ended in `o`. -/
inductive Leaves : Outcome σ α → σ → Prop
  | done (a : α) (s : σ) : Leaves (done a s) s
  | thrown (s : σ) : Leaves (thrown s) s

/-- The state a run leaves, `s` when it is stuck. -/
def stateD : Outcome σ α → σ → σ
  | done _ s, _ => s
  | thrown s, _ => s
  | stuck, s => s

/-- The value a run returns. -/
def value? : Outcome σ α → Option α
  | done a _ => some a
  | _ => none

def isStuck : Outcome σ α → Bool
  | stuck => true
  | _ => false

variable {Q Q' : α → σ → Prop} {E E' : σ → Prop} {o : Outcome σ α} {s : σ}

theorem eq_done_of_value? {a : α} (h : o.value? = some a) : o = done a (o.stateD s) := by
  cases o with
  | done b t =>
    cases h
    rfl
  | thrown t => cases h
  | stuck => cases h

theorem eq_thrown_of_value? (h : o.value? = none) (hstuck : o.isStuck = false) :
    o = thrown (o.stateD s) := by
  cases o with
  | done a s' => cases h
  | thrown s' => rfl
  | stuck => cases hstuck

theorem leaves_stateD (h : o.isStuck = false) : o.Leaves (o.stateD s) := by
  cases o with
  | done a t => exact .done a t
  | thrown t => exact .thrown t
  | stuck => cases h

@[simp] theorem holds_thrown (s : σ) : (thrown s).Holds Q E ↔ E s := .rfl

@[simp] theorem holds_stuck : (stuck : Outcome σ α).Holds Q E := trivial

theorem holds_true : o.Holds (fun _ _ => True) fun _ => True := by
  cases o <;> trivial

theorem Holds.mono (h : o.Holds Q E) (hQ : ∀ a s, Q a s → Q' a s) (hE : ∀ s, E s → E' s) :
    o.Holds Q' E' := by
  cases o with
  | done a s => exact hQ a s h
  | thrown s => exact hE s h
  | stuck => trivial

theorem Holds.and (h : o.Holds Q E) (h' : o.Holds Q' E') :
    o.Holds (fun a s => Q a s ∧ Q' a s) (fun s => E s ∧ E' s) := by
  cases o with
  | done a s => exact ⟨h, h'⟩
  | thrown s => exact ⟨h, h'⟩
  | stuck => trivial

/-- Sequencing: the continuation is verified in every state the first part can end in. -/
theorem Holds.andThen {R : β → σ → Prop} (h : o.Holds Q E)
    (hf : ∀ a s, Q a s → (f a s).Holds R E) : (o.andThen f).Holds R E := by
  cases o with
  | done a s => exact hf a s h
  | thrown s => exact h
  | stuck => trivial

theorem Holds.leaves {I : σ → Prop} (h : o.Holds (fun _ => I) I) (hs : o.Leaves s) : I s := by
  cases hs with
  | done a => exact h
  | thrown => exact h

theorem Holds.of_done {a : α} (h : o.Holds Q E) (ho : o = done a s) : Q a s := by
  subst ho
  exact h

/-- `o` returns, with a value and a state that meet `Q`, or fails in a way that `F` allows. -/
def Ends (Q : α → σ → Prop) (F : Fault → Prop) : Outcome σ α → Prop
  | done a s => Q a s
  | thrown _ => F .exception
  | stuck => F .undefined

variable {F F' : Fault → Prop} (h : o.Ends Q F)
include h

theorem Ends.mono (hQ : ∀ a s, Q a s → Q' a s) (hF : ∀ fault, F fault → F' fault) :
    o.Ends Q' F' := by
  cases o with
  | done a s => exact hQ a s h
  | thrown s => exact hF _ h
  | stuck => exact hF _ h

theorem Ends.andThen {R : β → σ → Prop} (hf : ∀ a s, Q a s → (f a s).Ends R F) :
    (o.andThen f).Ends R F := by
  cases o with
  | done a s => exact hf a s h
  | thrown s => exact h
  | stuck => exact h

theorem Ends.holds : o.Holds Q fun _ => F .exception := by
  cases o with
  | done a s => exact h
  | thrown s => exact h
  | stuck => trivial

/-- A run that cannot fail returns. -/
theorem Ends.exists_done (hF : ∀ fault, ¬F fault) : ∃ a s, o = done a s ∧ Q a s := by
  cases o with
  | done a s => exact ⟨a, s, rfl, h⟩
  | thrown s => exact (hF _ h).elim
  | stuck => exact (hF _ h).elim

omit h

theorem Holds.mapState {f : τ → σ} {o : Outcome τ α}
    (h : o.Holds (fun a t => Q a (f t)) (fun t => E (f t))) : (o.mapState f).Holds Q E := by
  cases o with
  | done a s => exact h
  | thrown s => exact h
  | stuck => trivial

end Outcome

namespace Program

open Outcome

variable {p q : Program σ α} {s s' : σ} {f : σ → Except Fault α}

instance : Monad (Program σ) where
  pure a := fun s => done a s
  bind p f := fun s => (p s).andThen f

theorem pure_run (a : α) : (pure a : Program σ α) s = done a s := rfl

theorem bind_run (f : α → Program σ β) : (p >>= f) s = (p s).andThen fun a t => f a t := rfl

theorem bind_eq_done {f : α → Program σ β} {b : β} :
    (p >>= f) s = done b s' ↔ ∃ a t, p s = done a t ∧ f a t = done b s' := by
  exact andThen_eq_done

@[ext] theorem ext (h : ∀ s, p s = q s) : p = q := funext h

instance : LawfulMonad (Program σ) := LawfulMonad.mk' _
  (fun p => by
    ext s
    change (p s).andThen _ = p s
    cases p s <;> rfl)
  (fun _ _ => rfl)
  (fun p f g => by
    ext s
    change ((p s).andThen f).andThen g = (p s).andThen _
    cases p s <;> rfl)

/-- The state. -/
def get : Program σ σ := fun s => done s s

/-- Replace the state. -/
def modify (f : σ → σ) : Program σ Unit := fun s => done () (f s)

/-- A step that returns a value and the next state. -/
def modifyGet (f : σ → α × σ) : Program σ α := fun s => done (f s).1 (f s).2

/-- Throw an exception. -/
def throw : Program σ α := fun s => thrown s

/-- Undefined behaviour. -/
def undefined : Program σ α := fun _ => stuck

/-- Pure code that reads the state and may fail, as a program. -/
def read (f : σ → Except Fault α) : Program σ α := fun s =>
  match f s with
  | .ok a => done a s
  | .error .exception => thrown s
  | .error .undefined => stuck

/-- Run a program on the part of the state that `proj` reads and `put` writes. -/
def zoom (proj : τ → σ) (put : σ → τ → τ) (p : Program σ α) : Program τ α := fun t =>
  (p (proj t)).mapState fun s => put s t

/-- Run `p` on every element of a list, from left to right. -/
def forEach (p : ι → Program σ Unit) : List ι → Program σ Unit
  | [] => pure ()
  | i :: is => do
    p i
    forEach p is

/-- Run `p` from left to right until it returns `false`. -/
def forAllM (p : ι → Program σ Bool) : List ι → Program σ Bool
  | [] => pure true
  | i :: is => do
    if ← p i then
      forAllM p is
    else
      pure false

@[simp] theorem get_run : (get : Program σ σ) s = done s s := rfl

@[simp] theorem modify_run (f : σ → σ) : modify f s = done () (f s) := rfl

/-- A program that reads the state first. -/
theorem get_bind_run {γ : Type u} (f : σ → Program σ γ) : (get >>= f) s = f s s := rfl

theorem modify_bind_run {γ : Type} (f : σ → σ) (g : Unit → Program σ γ) :
    (modify f >>= g) s = g () (f s) := rfl

@[simp] theorem modifyGet_run (f : σ → α × σ) : modifyGet f s = done (f s).1 (f s).2 := rfl

@[simp] theorem throw_run : (throw : Program σ α) s = thrown s := rfl

@[simp] theorem undefined_run : (undefined : Program σ α) s = stuck := rfl

theorem zoom_run (proj : τ → σ) (put : σ → τ → τ) (t : τ) :
    zoom proj put p t = (p (proj t)).mapState fun s => put s t := rfl

theorem read_ok {a : α} (h : f s = .ok a) : read f s = done a s := by
  simp [read, h]

theorem read_eq_done {a : α} : read f s = done a s' ↔ f s = .ok a ∧ s' = s := by
  unfold read
  split <;> simp_all [eq_comm]

theorem read_eq_thrown : read f s = thrown s' ↔ f s = .error .exception ∧ s' = s := by
  unfold read
  split <;> simp_all [eq_comm]

/-- Every run of `p` from a state in `I` ends in `I`, whether it returns or throws. -/
def Keeps (I : σ → Prop) (p : Program σ α) : Prop :=
  ∀ s, I s → (p s).Holds (fun _ => I) I

variable {I : σ → Prop}

theorem Keeps.pure (a : α) : Keeps I (pure a : Program σ α) := fun _ h => h

theorem Keeps.bind {f : α → Program σ β} (hp : Keeps I p) (hf : ∀ a, Keeps I (f a)) :
    Keeps I (p >>= f) := fun s hs =>
  (hp s hs).andThen fun a s' hs' => hf a s' hs'

theorem Keeps.get : Keeps I (get : Program σ σ) := fun _ h => h

theorem Keeps.modify {f : σ → σ} (h : ∀ s, I s → I (f s)) : Keeps I (modify f) := h

theorem Keeps.modifyGet {f : σ → α × σ} (h : ∀ s, I s → I (f s).2) : Keeps I (modifyGet f) := h

theorem Keeps.throw : Keeps I (throw : Program σ α) := fun _ h => h

theorem Keeps.read (f : σ → Except Fault α) : Keeps I (read f) := by
  intro s hs
  unfold Program.read
  split
  · exact hs
  · exact hs
  · trivial

theorem Keeps.ite {c : Prop} [Decidable c] (hp : c → Keeps I p)
    (hq : ¬c → Keeps I q) : Keeps I (if c then p else q) := by
  split
  · exact hp ‹_›
  · exact hq ‹_›

theorem forAllM_cons_of_true {p : ι → Program σ Bool} {i : ι} {is : List ι} {t : σ}
    (h : p i s = done true t) : forAllM p (i :: is) s = forAllM p is t := by
  rw [forAllM, bind_run, h, andThen_done, if_pos rfl]

theorem Keeps.forAllM {p : ι → Program σ Bool} {is : List ι} (h : ∀ i ∈ is, Keeps I (p i)) :
    Keeps I (forAllM p is) := by
  induction is with
  | nil => exact .pure true
  | cons i is ih =>
    refine .bind (h i List.mem_cons_self) fun b => .ite (fun _ => ?_) fun _ => ?_
    · exact ih fun j hj => h j (List.mem_cons_of_mem i hj)
    · exact .pure false

/-- Framing: an invariant of the part is an invariant of the whole under `zoom`. -/
theorem Keeps.zoom {proj : τ → σ} {put : σ → τ → τ} {J : τ → Prop}
    (h : ∀ t, J t → (p (proj t)).Holds (fun _ s => J (put s t)) fun s => J (put s t)) :
    Keeps J (zoom proj put p) := fun t ht =>
  (h t ht).mapState

theorem Keeps.leaves (h : Keeps I p) (hs : I s) (hp : (p s).Leaves s') : I s' :=
  (h s hs).leaves hp

/-- Whatever `p` returns satisfies `Q`. -/
def Returns (Q : α → Prop) (p : Program σ α) : Prop :=
  ∀ s a s', p s = done a s' → Q a

variable {Q : α → Prop} {R : β → Prop}

theorem Returns.pure {a : α} (h : Q a) : Returns Q (pure a : Program σ α) := by
  intro s b s' hrun
  cases hrun
  exact h

theorem Returns.bind {f : α → Program σ β} (hp : Returns Q p)
    (hf : ∀ a, Q a → Returns R (f a)) : Returns R (p >>= f) := by
  intro s b s' hrun
  obtain ⟨a, t, hfirst, hsecond⟩ := bind_eq_done.mp hrun
  exact hf a (hp s a t hfirst) t b s' hsecond

theorem Returns.trivial : Returns (fun _ => True) p := fun _ _ _ _ => True.intro

theorem Returns.read (h : ∀ s a, f s = .ok a → Q a) : Returns Q (read f) := by
  intro s a s' hrun
  exact h s a (read_eq_done.mp hrun).1

theorem Returns.undefined : Returns Q (undefined : Program σ α) := by
  intro s a s' hrun
  cases hrun

theorem Returns.ite {c : Prop} [Decidable c] (hp : c → Returns Q p)
    (hq : ¬c → Returns Q q) : Returns Q (if c then p else q) := by
  split
  · exact hp ‹_›
  · exact hq ‹_›

end Program

/-! ### Programs that ignore a part of the state

A change `f` of the state is ignored by a program when running the program after the change gives
what running it before the change gives, with the change made to the state that is left: the program
neither reads nor writes the part of the state that `f` changes. -/

namespace Outcome

variable {σ : Type u} {f : σ → σ}

theorem mapState_andThen (o : Outcome σ α) (k : α → σ → Outcome σ β)
    (hk : ∀ a s, k a (f s) = (k a s).mapState f) :
    (o.mapState f).andThen k = (o.andThen k).mapState f := by
  cases o with
  | done a s => exact hk a s
  | thrown s => rfl
  | stuck => rfl

end Outcome

namespace Program

variable {σ : Type u} {α β : Type v} {f : σ → σ} {p : Program σ α}

/-- Running the program commutes with the change `f` of the state. -/
def Ignores (f : σ → σ) (p : Program σ α) : Prop := ∀ s, p (f s) = (p s).mapState f

theorem Ignores.pure (a : α) : Ignores f (pure a : Program σ α) := fun _ => rfl

theorem Ignores.throw : Ignores f (throw : Program σ α) := fun _ => rfl

theorem Ignores.undefined : Ignores f (undefined : Program σ α) := fun _ => rfl

theorem Ignores.bind {k : α → Program σ β} (hp : Ignores f p) (hk : ∀ a, Ignores f (k a)) :
    Ignores f (p >>= k) := by
  intro s
  rw [bind_run, hp s]
  exact Outcome.mapState_andThen _ _ fun a s => hk a s

/-- The state may be read as long as what is done with it does not depend on the change. -/
theorem Ignores.getBind {σ : Type v} {f : σ → σ} {k : σ → Program σ β}
    (hread : ∀ s, k (f s) = k s) (hk : ∀ s, Ignores f (k s)) : Ignores f (get >>= k) := by
  intro s
  change k (f s) (f s) = (k s s).mapState f
  rw [hread s]
  exact hk s s

theorem Ignores.modify {g : σ → σ} (h : ∀ s, g (f s) = f (g s)) : Ignores f (modify g) := by
  intro s
  rw [modify_run, modify_run, Outcome.mapState_done, h s]

theorem Ignores.read {r : σ → Except Fault α} (h : ∀ s, r (f s) = r s) : Ignores f (read r) := by
  intro s
  unfold Program.read
  rw [h s]
  cases r s with
  | ok a => rfl
  | error fault => cases fault <;> rfl

theorem Ignores.ite {c : Prop} [Decidable c] {q : Program σ α} (hp : Ignores f p)
    (hq : Ignores f q) : Ignores f (if c then p else q) := by
  split
  · exact hp
  · exact hq

/-- What a run after the change returns, a run before it returns as well. -/
theorem Ignores.done (h : Ignores f p) {s s' : σ} {a : α}
    (hrun : p (f s) = .done a s') : ∃ t, p s = .done a t ∧ s' = f t := by
  rw [h s] at hrun
  cases hp : p s with rw [hp] at hrun
  | done b t =>
    cases hrun
    exact ⟨t, rfl, rfl⟩
  | thrown t =>
    cases hrun
  | stuck =>
    cases hrun

end Program

/-! ### Reading a stream into a state

A deserialiser takes symbols off an input and writes what it read into a target while it goes on.
When the input ends early it throws, and the target keeps what was written before. -/

/-- A target together with the input that is still to be read. -/
structure Feed (β : Type u) (σ : Type u) where
  input : List β
  target : σ

namespace Feed

variable {β σ : Type u}

/-- Take a value off the input; throw when the reader fails. -/
def take (reader : List β → Option (α × List β)) : Program (Feed β σ) α := fun s =>
  match reader s.input with
  | none => .thrown s
  | some (a, rest) => .done a { s with input := rest }

/-- Write to the target. -/
def update (f : σ → σ) : Program (Feed β σ) Unit :=
  Program.modify fun s => { s with target := f s.target }

end Feed

namespace Outcome

variable {σ τ : Type u} {α : Type v} {f : σ → τ} {o : Outcome σ α}

theorem mapState_eq_done {a : α} {t : τ} : o.mapState f = .done a t ↔ ∃ s, o = .done a s ∧
    f s = t := by
  cases o with
  | done b s => simp
  | thrown s => simp [mapState]
  | stuck => simp [mapState]

theorem mapState_eq_thrown {t : τ} : o.mapState f = .thrown t ↔ ∃ s, o = .thrown s ∧ f s = t := by
  cases o with
  | done b s => simp
  | thrown s => simp [mapState]
  | stuck => simp [mapState]

end Outcome

namespace Program

open Outcome

variable {β : Type u} {α : Type v}

/-- Run `p` a number of times. -/
def times (p : Program σ PUnit) : Nat → Program σ PUnit
  | 0 => pure ⟨⟩
  | n + 1 => do
    p
    times p n

theorem Keeps.times {I : σ → Prop} {p : Program σ PUnit} (h : Keeps I p) (n : Nat) :
    Keeps I (times p n) := by
  induction n with
  | zero => exact .pure _
  | succ n ih => exact .bind h fun _ => ih

theorem Keeps.take (J : σ → Prop) (reader : List β → Option (α × List β)) :
    Keeps (fun s : Feed β σ => J s.target) (Feed.take reader) := by
  intro s hs
  unfold Feed.take
  split
  · exact hs
  · exact hs

end Program

/-! ### The calls a program makes

A program that ends in undefined behaviour leaves no state to speak about. Its calls are collected
alongside it: a map from the state it starts in to the set of calls it makes from there, whether or
not the call returns. The maps compose as the programs do, and a bound on all calls is proved with
the same invariants as a bound on the states. -/

namespace Program

variable {σ α ι κ : Type}

/-- The calls `rest` makes after `p` has returned; none if `p` throws or does not return. -/
def after (p : Program σ α) (rest : α → σ → Set κ) (s : σ) : Set κ :=
  { call | ∃ a s', p s = .done a s' ∧ call ∈ rest a s' }

/-- The calls of `forAllM p`, where `calls i` are the calls of `p i`. -/
def afterEach (p : ι → Program σ Bool) (calls : ι → σ → Set κ) : List ι → σ → Set κ
  | [], _ => ∅
  | i :: is, s =>
    calls i s ∪ after (p i) (fun ok s' => { call | ok ∧ call ∈ afterEach p calls is s' }) s

theorem after_subset {p : Program σ α} {rest : α → σ → Set κ} {s : σ} {Q : α → σ → Prop}
    {E : σ → Prop} {S : Set κ} (h : (p s).Holds Q E) (hrest : ∀ a s', Q a s' → rest a s' ⊆ S) :
    after p rest s ⊆ S := by
  rintro call ⟨a, s', hdone, hcall⟩
  exact hrest a s' (h.of_done hdone) hcall

theorem afterEach_subset {p : ι → Program σ Bool} {calls : ι → σ → Set κ} {I : σ → Prop} {S : Set κ}
    {is : List ι} (hkeeps : ∀ i ∈ is, (p i).Keeps I) (hcalls : ∀ i ∈ is, ∀ s, I s → calls i s ⊆ S)
    {s : σ} (hs : I s) : afterEach p calls is s ⊆ S := by
  induction is generalizing s with
  | nil => exact Set.empty_subset S
  | cons i is ih =>
    obtain ⟨hkeepsHead, hkeepsTail⟩ := List.forall_mem_cons.mp hkeeps
    obtain ⟨hcallsHead, hcallsTail⟩ := List.forall_mem_cons.mp hcalls
    apply Set.union_subset (hcallsHead s hs)
    apply after_subset (hkeepsHead s hs)
    rintro ok s' hs' call ⟨-, hcall⟩
    exact ih hkeepsTail hcallsTail hs' hcall

end Program

/-! ### Fallible computations in sequence

When a computation in `Except` that is made of steps returns, every step returned. -/

variable {ε α β : Type} {f : α → Except ε β}

theorem mapM_cons_eq_ok {a : α} {as : List α} {out : List β} :
    (a :: as).mapM f = .ok out ↔ ∃ b bs, f a = .ok b ∧ as.mapM f = .ok bs ∧ out = b :: bs := by
  rw [List.mapM_cons]
  cases hf : f a with
  | error fault => simp [bind, Except.bind]
  | ok b =>
    cases hrest : as.mapM f with
    | error fault => simp [bind, Except.bind]
    | ok bs => simp [bind, Except.bind, pure, Except.pure, eq_comm]

/-- Lookups that all succeed succeed together. -/
theorem exists_mapM_of_forall {l : List α} (h : ∀ a ∈ l, ∃ b, f a = .ok b) :
    ∃ out, l.mapM f = .ok out := by
  induction l with
  | nil => exact ⟨[], rfl⟩
  | cons a l ih =>
    obtain ⟨⟨b, hb⟩, hrest⟩ := List.forall_mem_cons.mp h
    obtain ⟨out, hout⟩ := ih hrest
    exact ⟨b :: out, mapM_cons_eq_ok.mpr ⟨b, out, hb, hout, rfl⟩⟩

/-- Looking up the same things in another order gives the same answers in another order. -/
theorem exists_mapM_of_perm {l l' : List α} (h : l.Perm l') {out' : List β}
    (hout : l'.mapM f = .ok out') : ∃ out, l.mapM f = .ok out ∧ out.Perm out' := by
  induction h generalizing out' with
  | nil => exact ⟨out', hout, .refl _⟩
  | cons a _ ih =>
    obtain ⟨b, bs, hb, hbs, rfl⟩ := mapM_cons_eq_ok.mp hout
    obtain ⟨cs, hcs, hperm⟩ := ih hbs
    exact ⟨b :: cs, mapM_cons_eq_ok.mpr ⟨b, cs, hb, hcs, rfl⟩, hperm.cons b⟩
  | swap a a' l =>
    obtain ⟨b, _, hb, hrest, rfl⟩ := mapM_cons_eq_ok.mp hout
    obtain ⟨b', bs, hb', hbs, rfl⟩ := mapM_cons_eq_ok.mp hrest
    exact ⟨b' :: b :: bs, mapM_cons_eq_ok.mpr ⟨b', b :: bs, hb',
      mapM_cons_eq_ok.mpr ⟨b, bs, hb, hbs, rfl⟩, rfl⟩, .swap b b' bs⟩
  | trans _ _ ih ih' =>
    obtain ⟨out, hmiddle, hperm⟩ := ih' hout
    obtain ⟨out, hfirst, hperm'⟩ := ih hmiddle
    exact ⟨out, hfirst, hperm'.trans hperm⟩

/-! ### Loops with a counter of bounded width

`for (counter = 0; counter < xs.size(); ++counter)` visits the elements of `xs` one after the other
as long as the counter can hold every number up to the number of elements. A counter with fewer
values starts again at zero before it reaches the end, and the loop goes on forever. -/

namespace Program

open List

variable {σ α : Type}

/-- The loop over `xs` from `counter` on, with a counter of `word` values. It returns the number of
rounds it made, and is given up after `fuel` rounds. -/
def countedLoop (word : Nat) (xs : List α) (body : Nat → α → Program σ Unit) : Nat → Nat →
    Program σ Nat
  | 0, counter => if counter < xs.length then undefined else pure 0
  | fuel + 1, counter =>
    match xs[counter]? with
    | none => pure 0
    | some x => do
      body counter x
      let rounds ← countedLoop word xs body fuel ((counter + 1) % word)
      pure (rounds + 1)

/-- Run `body` on every element of a list with its position, where the first has position
`position`. -/
def forEachIdx (body : Nat → α → Program σ Unit) : Nat → List α → Program σ Unit
  | _, [] => pure ()
  | position, x :: xs => do
    body position x
    forEachIdx body (position + 1) xs

theorem forEachIdx_eq_forEach (p : α → Program σ Unit) (xs : List α) (position : Nat) :
    forEachIdx (fun _ => p) position xs = forEach p xs := by
  induction xs generalizing position with
  | nil => rfl
  | cons x xs ih => rw [forEachIdx, forEach, ih]

theorem forEachIdx_concat (body : Nat → α → Program σ Unit) (xs : List α) (x : α)
    (position : Nat) (s : σ) : forEachIdx body position (xs ++ [x]) s =
      (forEachIdx body position xs s).andThen fun _ s' => body (position + xs.length) x s' := by
  induction xs generalizing position s with
  | nil =>
    change (body position x s).andThen (fun _ s' => .done () s') = body position x s
    cases body position x s <;> rfl
  | cons y xs ih =>
    rw [cons_append, forEachIdx, forEachIdx, bind_run, bind_run, length_cons,
      Nat.add_comm xs.length, ← Nat.add_assoc]
    cases body position y s with
    | done a s' => exact ih (position + 1) s'
    | thrown s' => rfl
    | stuck => rfl

/-- The loop makes one round for each element, at the position of the element, and ends. -/
def VisitsEach (word : Nat) (xs : List α) (body : Nat → α → Program σ Unit) (fuel : Nat) : Prop :=
  ∀ s, countedLoop word xs body fuel 0 s = (forEachIdx body 0 xs s).andThen fun _ s' =>
    .done xs.length s'

variable {word : Nat} {body : Nat → α → Program σ Unit} {xs : List α}

theorem countedLoop_succ {counter : Nat} {x : α} (hx : xs[counter]? = some x) (fuel : Nat) (s : σ) :
    countedLoop word xs body (fuel + 1) counter s = (body counter x s).andThen fun _ s' =>
      (countedLoop word xs body fuel ((counter + 1) % word) s').andThen fun rounds s'' =>
      .done (rounds + 1) s'' := by
  rw [countedLoop, hx]
  rfl

/-- The loop from the middle of the list on. -/
theorem countedLoop_append {visited rest : List α} {fuel : Nat}
    (hword : (visited ++ rest).length < word) (hfuel : rest.length ≤ fuel) (s : σ) :
    countedLoop word (visited ++ rest) body fuel visited.length s =
      (forEachIdx body visited.length rest s).andThen fun _ s' => .done rest.length s' := by
  induction rest generalizing visited fuel s with
  | nil =>
    rw [append_nil]
    cases fuel with
    | zero => rw [countedLoop, if_neg (Nat.lt_irrefl _)]; rfl
    | succ fuel => rw [countedLoop, getElem?_eq_none (Nat.le_refl _)]; rfl
  | cons x rest ih =>
    obtain ⟨fuel, rfl⟩ : ∃ more, fuel = more + 1 := Nat.exists_eq_succ_of_ne_zero (by
      rw [length_cons] at hfuel
      omega)
    have hhead : (visited ++ x :: rest)[visited.length]? = some x := by simp
    have hnext : (visited.length + 1) % word = (visited ++ [x]).length := by
      rw [length_append, length_cons] at hword
      rw [length_append, length_singleton, Nat.mod_eq_of_lt (by omega)]
    rw [countedLoop_succ hhead, forEachIdx, bind_run]
    cases body visited.length x s with
    | thrown s' => rfl
    | stuck => rfl
    | done _ s' =>
      -- the counter did not wrap: it is the number of elements visited
      rw [Outcome.andThen_done, Outcome.andThen_done, hnext, append_cons,
        ih (by rwa [append_assoc]) (Nat.le_of_succ_le_succ hfuel)]
      rw [length_append]
      cases forEachIdx body (visited.length + 1) rest s' <;> rfl

/-- With fewer elements than the counter has values, the loop visits each element once. -/
theorem visitsEach {fuel : Nat} (hword : xs.length < word)
    (hfuel : xs.length ≤ fuel) : VisitsEach word xs body fuel := by
  have hloop := @countedLoop_append _ _ word body [] xs fuel hword hfuel
  exact hloop

/-- With as many elements as the counter has values, the loop does not end. -/
theorem countedLoop_stuck (hword : word ≤ xs.length)
    (hbody : ∀ counter x s, xs[counter]? = some x → ∃ s', body counter x s = .done () s')
    {counter : Nat} (hcounter : counter < word) (fuel : Nat) (s : σ) :
    countedLoop word xs body fuel counter s = .stuck := by
  induction fuel generalizing counter s with
  | zero => rw [countedLoop, if_pos (Nat.lt_of_lt_of_le hcounter hword), undefined_run]
  | succ fuel ih =>
    have hx := getElem?_eq_getElem (Nat.lt_of_lt_of_le hcounter hword)
    obtain ⟨s', hs'⟩ := hbody counter _ s hx
    rw [countedLoop_succ hx, hs', Outcome.andThen_done,
      ih (Nat.mod_lt _ (Nat.zero_lt_of_lt hcounter)), Outcome.andThen_stuck]

end Program

end Semantics
