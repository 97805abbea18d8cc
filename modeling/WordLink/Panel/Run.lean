import WordLink.Panel

/-!
# Running a panel

`run` works off an agenda. What may still come of the scripts is bounded by the weight of the
panel and of the agenda together: a step either lowers it or, at the same weight, leaves nothing
new to be done (`step_weight`). A dispatch calls the listeners that are registered when it starts,
one after the other, each with all that it sets off.
-/
namespace WordLink

/-- What the commands of the task may still set off. -/
def Task.weight : Task → Nat
  | .call _ _ => 0
  | .act _ command => command.weight
  | .note _ _ => 0

def Task.weights : List Task → Nat
  | [] => 0
  | t :: rest => t.weight + Task.weights rest

namespace Task

@[simp] theorem weights_nil : weights [] = 0 := rfl

@[simp] theorem weights_cons (t : Task) (ts : List Task) :
    weights (t :: ts) = t.weight + weights ts := rfl

@[simp] theorem weights_append (ts us : List Task) :
    weights (ts ++ us) = weights ts + weights us := by
  induction ts with
  | nil => simp
  | cons t ts ih => simp [ih, Nat.add_assoc]

theorem weights_calls (listeners : List Nat) (event : Event) :
    weights (listeners.map (Task.call · event)) = 0 := by
  induction listeners with
  | nil => rfl
  | cons k ks ih => simpa [weight] using ih

theorem weights_acts (name : String) (actions : List Command) :
    weights (actions.map (Task.act name)) = Command.weights actions := by
  induction actions with
  | nil => rfl
  | cons c cs ih => simpa [weight, Command.weights] using ih

end Task

def Listener.weight (l : Listener) : Nat := Command.scriptWeight l.script

namespace Panel

/-- What the scripts of the listeners may still set off. -/
def totalWeight : List Listener → Nat
  | [] => 0
  | l :: rest => l.weight + totalWeight rest

def weight (p : Panel) : Nat := totalWeight p.listeners.toList

theorem weight_congr {p q : Panel} (h : p.listeners = q.listeners) : p.weight = q.weight := by
  simp [weight, h]

theorem weight_push {p q : Panel} {l : Listener} (h : q.listeners = p.listeners.push l) :
    q.weight = p.weight + l.weight := by
  have : ∀ ls, totalWeight (ls ++ [l]) = totalWeight ls + l.weight := by
    intro ls
    induction ls with
    | nil => simp [totalWeight]
    | cons k ls ih => simp [totalWeight, ih, Nat.add_assoc]
  simp [weight, h, this]

@[simp] theorem listeners_unmount (p : Panel) (m : Mount) :
    (p.unmount m).listeners = p.listeners := by
  unfold unmount
  split <;> rfl

@[simp] theorem listeners_takeDown (p : Panel) (name : String) :
    (p.takeDown name).listeners = p.listeners := by
  unfold takeDown
  split <;> simp

@[simp] theorem listeners_putUp (p : Panel) (name : String) (m : Mount) :
    (p.putUp name m).listeners = p.listeners := by
  simp [putUp]

@[simp] theorem listeners_foldl_unmount (ms : List Mount) (p : Panel) :
    (ms.foldl unmount p).listeners = p.listeners := by
  induction ms generalizing p with
  | nil => rfl
  | cons m ms ih => simp [ih]

@[simp] theorem listeners_putUpAll (p : Panel) (name : String) (ms : List Mount) :
    (p.putUpAll name ms).listeners = p.listeners := by
  have : ∀ (l : List (Mount × Nat)) (p : Panel),
      (l.foldl (fun p e => p.putUp (numbered name e.2) e.1) p).listeners = p.listeners := by
    intro l
    induction l with
    | nil => simp
    | cons e l ih => simp [ih]
  exact this _ p

@[simp] theorem listeners_registerAll (name : String) (l : List (RegistrationId × Nat))
    (p : Panel) :
    (l.foldl (fun p e => p.register (numbered name e.2) e.1) p).listeners = p.listeners := by
  induction l generalizing p with
  | nil => rfl
  | cons e l ih => exact ih (p.register (numbered name e.2) e.1)

@[simp] theorem weight_putUp (p : Panel) (name : String) (m : Mount) :
    (p.putUp name m).weight = p.weight :=
  weight_congr (by simp)

@[simp] theorem weight_putUpAll (p : Panel) (name : String) (ms : List Mount) :
    (p.putUpAll name ms).weight = p.weight :=
  weight_congr (by simp)

theorem listeners_mount (p : Panel) (l : Listener) (g : Gauge) (attached : Bool) :
    (p.mount l g attached).1.listeners = p.listeners.push { l with role := .gauge g } := by
  unfold mount
  split <;> rfl

theorem weight_mount (p : Panel) (l : Listener) (g : Gauge) (attached : Bool) :
    (p.mount l g attached).1.weight = p.weight + l.weight :=
  weight_push (l := { l with role := .gauge g }) (listeners_mount p l g attached)

theorem weight_follow_le (p : Panel) (l : Listener) (field : Field) (attached : Bool) :
    (p.follow l field attached).1.weight ≤ p.weight + l.weight := by
  unfold follow
  split
  · exact Nat.le_of_eq (weight_mount ..)
  · exact Nat.le_add_right _ _

theorem weight_silent (name : String) :
    ({ name, outspoken := false } : Listener).weight = 0 := rfl

theorem weight_followAll_le (name : String) (fields : List Field) (done : List Mount)
    (p : Panel) : (p.followAll name done fields).1.weight ≤ p.weight := by
  induction fields generalizing p done with
  | nil => exact Nat.le_refl _
  | cons field rest ih =>
    have hf := p.weight_follow_le { name, outspoken := false } field true
    rw [weight_silent] at hf
    unfold followAll
    split
    · rename_i q m heq
      rw [heq] at hf
      exact Nat.le_trans (ih (m :: done) q) hf
    · rename_i q cause heq
      rw [heq] at hf
      exact Nat.le_trans (Nat.le_of_eq (weight_congr (by simp))) hf

/-- Carrying out a command uses it up and at most adds the scripts it brings. -/
theorem weight_perform_lt (p : Panel) (c : Command) :
    (p.perform c).1.weight < p.weight + c.weight := by
  have same {q : Panel} (h : q.listeners = p.listeners) : q.weight < p.weight + c.weight := by
    have := c.weight_pos
    have := weight_congr h
    omega
  have more {q : Panel} {l : Listener} (h : q.listeners = p.listeners.push l)
      (hw : c.weight = 1 + l.weight) : q.weight < p.weight + c.weight := by
    have := weight_push h
    omega
  have atMost {q : Panel} {w : Nat} (h : q.weight ≤ p.weight + w) (hw : c.weight = 1 + w) :
      q.weight < p.weight + c.weight := by
    omega
  cases c with
  | subscribe name address script => exact more (l := { name, script }) rfl rfl
  | subscribeShared name addresses script =>
    exact more (l := { name, script }) (by simp [perform, addListener]) rfl
  | subscribeBoundary name script => exact more (l := { name, script }) rfl rfl
  | unsubscribe name => exact same (by simp only [perform]; split <;> rfl)
  | unsubscribeBoundary name => exact same (by simp only [perform]; split <;> rfl)
  | compareIds name other => exact same (by simp only [perform]; split <;> rfl)
  | isSubscribed address => exact same rfl
  | dispatch event => exact same rfl
  | follow name field outspoken script =>
    have hf := p.weight_follow_le { name, outspoken, script } field false
    refine atMost (w := Command.scriptWeight script) (Nat.le_trans (Nat.le_of_eq ?_) hf) rfl
    simp only [perform]
    split <;> (rename_i heq; simp [heq])
  | attach name definition =>
    simp only [perform]
    split
    · exact same rfl
    · rename_i field _
      have hf := p.weight_follow_le { name, outspoken := false } field true
      rw [weight_silent] at hf
      refine atMost (w := 0) (Nat.le_trans (Nat.le_of_eq ?_) hf) rfl
      split <;> (rename_i heq; simp [heq])
  | attachAll name definitions =>
    simp only [perform]
    split
    · exact same rfl
    · rename_i fields _
      refine atMost (w := 0)
        (Nat.le_trans (Nat.le_of_eq ?_) (weight_followAll_le name fields [] p)) rfl
      split <;> (rename_i heq; simp [heq])
  | drop name => exact same (by simp [perform])
  | query name => exact same (by simp only [perform]; split <;> rfl)
  | describeGauge name => exact same (by simp only [perform]; split <;> rfl)
  | describeRoster => exact same rfl

theorem weights_summons (p : Panel) (c : Command) : Task.weights (p.summons c) = 0 := by
  cases c with
  | dispatch event => cases event <;> simp [summons, calls, Task.weights_calls]
  | _ => rfl

theorem totalWeight_modify (f : Listener → Listener) {ls : List Listener} {i : Nat}
    {l : Listener} (hl : ls[i]? = some l) :
    totalWeight (ls.modify i f) + l.weight = totalWeight ls + (f l).weight := by
  induction ls generalizing i with
  | nil => simp at hl
  | cons k ls ih =>
    cases i with
    | zero =>
      obtain rfl : k = l := by simpa using hl
      simp only [List.modify_zero_cons, totalWeight]
      omega
    | succ i =>
      have := ih (i := i) (by simpa using hl)
      simp only [List.modify_succ_cons, totalWeight]
      omega

theorem weight_modify (p : Panel) {i : Nat} {l : Listener} (hl : p.listeners[i]? = some l)
    (f : Listener → Listener) :
    ({ p with listeners := p.listeners.modify i f } : Panel).weight + l.weight =
      p.weight + (f l).weight := by
  simp only [weight, Array.toList_modify]
  exact totalWeight_modify f (by rwa [Array.getElem?_toList])

theorem weight_write (p : Panel) (entry : Entry) : (p.write entry).weight = p.weight :=
  weight_congr rfl

/-- A step lowers the weight or leaves nothing new to be done. -/
theorem step_weight (p : Panel) (t : Task) :
    (p.step t).1.weight + Task.weights (p.step t).2 < p.weight + t.weight ∨
      (p.step t).1.weight = p.weight + t.weight ∧ (p.step t).2 = [] := by
  cases t with
  | call k event =>
    simp only [step, call, Task.weight]
    cases hl : p.listeners[k]? with
    | none => exact .inr ⟨rfl, rfl⟩
    | some l =>
      have hm := p.weight_modify hl (Listener.hear event)
      cases he : l.remark? event with
      | none =>
        have hs : (Listener.hear event l).weight = l.weight := by
          simp [Listener.weight, Listener.hear, he]
        rw [hs] at hm
        simp only [he]
        exact .inr ⟨by omega, trivial⟩
      | some entry =>
        have hs : (Listener.hear event l).weight =
            Command.scriptWeight (Stretch.spend l.script) := by
          simp [Listener.weight, Listener.hear, he]
        rw [hs] at hm
        simp only [he, weight_write, Listener.actions, Task.weights_acts]
        rcases Stretch.weight_spend l.script with hlt | ⟨heq, hnil⟩
        · exact .inl (by unfold Listener.weight at hm; omega)
        · exact .inr ⟨by unfold Listener.weight at hm; omega, by simp [hnil]⟩
  | act name c =>
    have hp := p.weight_perform_lt c
    have hs := p.weights_summons c
    refine .inl ?_
    simp only [step, Task.weights_append, Task.weights_cons, Task.weights_nil, Task.weight, hs]
    omega
  | note name reply => exact .inr ⟨rfl, rfl⟩

def run (p : Panel) : List Task → Panel
  | [] => p
  | t :: rest =>
    let done := p.step t
    done.1.run (done.2 ++ rest)
termination_by tasks => (p.weight + Task.weights tasks, tasks.length)
decreasing_by
  rcases p.step_weight t with h | ⟨h, hnil⟩
  · exact Prod.Lex.left _ _ (by simp only [Task.weights_append, Task.weights_cons]; omega)
  · rw [hnil, List.nil_append, h, Task.weights_cons, Nat.add_assoc]
    exact Prod.Lex.right _ (Nat.lt_succ_self _)

@[simp] theorem run_nil (p : Panel) : p.run [] = p := by
  rw [run]

theorem run_cons (p : Panel) (t : Task) (rest : List Task) :
    p.run (t :: rest) = (p.step t).1.run ((p.step t).2 ++ rest) := by
  rw [run]

def dispatch (p : Panel) (event : Event) : Panel := p.run (p.calls event)

def execute (p : Panel) (c : Command) : Panel × Reply :=
  let summons := p.summons c
  let (p, reply) := p.perform c
  (p.run summons, reply)

def takeLog (p : Panel) : Panel × List Entry := ({ p with log := #[] }, p.log.toList)

end Panel

end WordLink
