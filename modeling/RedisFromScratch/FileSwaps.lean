import Mathlib.Logic.Function.Basic
import Mathlib.Data.List.Sublists

/-!
Replacing a file by one that is written beside it and renamed. A run of such a
script ends when all its steps are done, when one fails and what was made is
removed, or when the process is killed between two operations. However it ends,
the file is the one it was or the new one as a whole.
-/
namespace RedisFromScratch.FileSwaps

variable {β ε : Type*}

/-- The file to be replaced, and the one written beside it by a process. -/
inductive FileName
  | target
  | temp (pid : ℕ)
  deriving DecidableEq, Repr

abbrev Files (β : Type*) := FileName → Option (List β)

/-- What a script asks of the system. A callback is not an operation on files, but may
fail like one. -/
inductive FileOp (β : Type*)
  | mkdirAll
  | create (f : FileName)
  | write (f : FileName) (chunk : List β)
  | callback
  | fsync (f : FileName)
  | stat (f : FileName)
  | close (f : FileName)
  | rename (f g : FileName)
  | remove (f : FileName)
  | syncDir

namespace FileOp

def apply : FileOp β → Files β → Files β
  | create f, fs => Function.update fs f (some [])
  | write f chunk, fs => Function.update fs f ((fs f).map (· ++ chunk))
  | rename f g, fs => Function.update (Function.update fs g (fs f)) f none
  | remove f, fs => Function.update fs f none
  | _, fs => fs

/-- What an operation that fails may have done. -/
def partly (n : ℕ) : FileOp β → Files β → Files β
  | write f chunk, fs => (write f (chunk.take n)).apply fs
  | _, fs => fs

/-- The items an operation appends. -/
def appended : FileOp β → List β
  | write _ chunk => chunk
  | _ => []

end FileOp

def perform (ops : List (FileOp β)) (fs : Files β) : Files β :=
  ops.foldl (fun fs op => op.apply fs) fs

/-- An operation, and what is done and returned if it fails. -/
structure Step (β ε : Type*) where
  op : FileOp β
  onFail : List (FileOp β)
  err : ε

inductive Ending (ε : Type*)
  | returned
  | failed (e : ε)
  | killed

/-- Errors of what is done after a failure are ignored. -/
inductive Ends : List (Step β ε) → Files β → Ending ε → Files β → Prop
  | returned (fs : Files β) : Ends [] fs .returned fs
  | killed (steps : List (Step β ε)) (fs : Files β) : Ends steps fs .killed fs
  | step {s : Step β ε} {rest : List (Step β ε)} {fs fs' : Files β} {e : Ending ε}
      (h : Ends rest (s.op.apply fs) e fs') : Ends (s :: rest) fs e fs'
  | failed (s : Step β ε) (rest : List (Step β ε)) (fs : Files β) (n : ℕ)
      {done : List (FileOp β)} (hdone : done.Sublist s.onFail) :
      Ends (s :: rest) fs (.failed s.err) (perform done (s.op.partly n fs))
  | killedCleaning (s : Step β ε) (rest : List (Step β ε)) (fs : Files β) (n : ℕ)
      {done : List (FileOp β)} (hdone : done.Sublist s.onFail) :
      Ends (s :: rest) fs .killed (perform done (s.op.partly n fs))

/-- Nothing need fail. -/
theorem ends_returned (steps : List (Step β ε)) (fs : Files β) :
    Ends steps fs .returned (perform (steps.map Step.op) fs) := by
  induction steps generalizing fs with
  | nil => exact .returned fs
  | cons s steps ih => exact .step (ih (s.op.apply fs))

theorem perform_append (ops more : List (FileOp β)) (fs : Files β) :
    perform (ops ++ more) fs = perform more (perform ops fs) := List.foldl_append

/-- The operation leaves the file to be replaced alone. -/
def Spares (op : FileOp β) : Prop := ∀ fs, op.apply fs .target = fs .target

section Spares

variable {pid : ℕ}

theorem spares_update (f : Files β → Option (List β)) (fs : Files β) :
    Function.update fs (.temp pid) (f fs) .target = fs .target :=
  Function.update_of_ne (by simp) _ _

theorem spares_write (chunk : List β) : Spares (.write (.temp pid) chunk) :=
  fun fs => spares_update (fun fs => (fs (.temp pid)).map (· ++ chunk)) fs

theorem spares_create : Spares (.create (.temp pid) : FileOp β) :=
  fun fs => spares_update (fun _ => some []) fs

theorem spares_remove : Spares (.remove (.temp pid) : FileOp β) :=
  fun fs => spares_update (fun _ => none) fs

theorem perform_spares {ops : List (FileOp β)} (h : ∀ op ∈ ops, Spares op) (fs : Files β) :
    perform ops fs .target = fs .target := by
  induction ops generalizing fs with
  | nil => rfl
  | cons op ops ih =>
    have hrest := ih (fun op' hop => h op' (List.mem_cons_of_mem _ hop)) (op.apply fs)
    exact hrest.trans (h op List.mem_cons_self fs)

/-- A step that spares the file, also when it fails. -/
structure Harmless (s : Step β ε) : Prop where
  done : Spares s.op
  partly : ∀ n fs, s.op.partly n fs .target = fs .target
  onFail : ∀ op ∈ s.onFail, Spares op

/-- A step that changes no file. -/
theorem harmless_quiet {op : FileOp β} (hop : ∀ fs, op.apply fs = fs)
    (hpartly : ∀ n fs, op.partly n fs = fs) {onFail : List (FileOp β)}
    (hfail : ∀ o ∈ onFail, Spares o) (err : ε) : Harmless ⟨op, onFail, err⟩ :=
  ⟨fun fs => by rw [hop], fun n fs => by rw [hpartly], hfail⟩

theorem spares_nil : ∀ op ∈ ([] : List (FileOp β)), Spares op := fun _ hop => by cases hop

theorem spares_removal : ∀ op ∈ [(.remove (.temp pid) : FileOp β)], Spares op := by
  intro op hop
  rw [List.mem_singleton.mp hop]
  exact spares_remove

/-- The step does nothing but append to the file beside. -/
structure Appends (pid : ℕ) (s : Step β ε) : Prop where
  op : (∃ chunk, s.op = .write (.temp pid) chunk) ∨ s.op = .callback
  onFail : ∀ op ∈ s.onFail, Spares op

theorem Appends.harmless {s : Step β ε} (h : Appends pid s) : Harmless s := by
  refine ⟨?_, ?_, h.onFail⟩
  · rcases h.op with ⟨chunk, hop⟩ | hop
    · rw [hop]
      exact spares_write chunk
    · rw [hop]
      exact fun _ => rfl
  · intro n fs
    rcases h.op with ⟨chunk, hop⟩ | hop
    · rw [hop]
      exact spares_write (chunk.take n) fs
    · rw [hop]
      rfl

/-- Appending steps leave the file beside with what they append. -/
theorem perform_appends {steps : List (Step β ε)} (h : ∀ s ∈ steps, Appends pid s) {fs : Files β}
    {d : List β} (hd : fs (.temp pid) = some d) :
    perform (steps.map Step.op) fs (.temp pid) =
      some (d ++ steps.flatMap fun s => s.op.appended) := by
  induction steps generalizing fs d with
  | nil =>
    rw [List.flatMap_nil, List.append_nil]
    exact hd
  | cons s steps ih =>
    have hnext : s.op.apply fs (.temp pid) = some (d ++ s.op.appended) := by
      rcases (h s List.mem_cons_self).op with ⟨chunk, hop⟩ | hop
      · rw [hop]
        change Function.update fs (.temp pid) _ (.temp pid) = _
        rw [Function.update_self, hd]
        rfl
      · rw [hop]
        exact hd.trans (by simp [FileOp.appended])
    rw [List.flatMap_cons, ← List.append_assoc]
    exact ih (fun s' hs => h s' (List.mem_cons_of_mem _ hs)) hnext

end Spares

section Swap

variable {pid : ℕ} {fs fs' : Files β} {e : Ending ε}

/-- A run through harmless steps ends among them, with the file as it was, or goes on
behind them. -/
theorem ends_append {front back : List (Step β ε)} (h : ∀ s ∈ front, Harmless s)
    (hends : Ends (front ++ back) fs e fs') :
    (e ≠ .returned ∧ fs' .target = fs .target) ∨
      Ends back (perform (front.map Step.op) fs) e fs' := by
  induction front generalizing fs with
  | nil => exact Or.inr hends
  | cons s front ih =>
    obtain ⟨hdone, hpartly, hfail⟩ := h s List.mem_cons_self
    have hcleaned : ∀ {done : List (FileOp β)}, done.Sublist s.onFail → ∀ n,
        perform done (s.op.partly n fs) .target = fs .target := by
      intro done hsub n
      rw [perform_spares (fun op hop => hfail op (hsub.subset hop)), hpartly]
    cases hends with
    | killed => exact Or.inl ⟨by simp, rfl⟩
    | failed _ _ _ n hsub | killedCleaning _ _ _ n hsub => exact Or.inl ⟨by simp, hcleaned hsub n⟩
    | step hrest =>
      rcases ih (fun s' hs => h s' (List.mem_cons_of_mem _ hs)) hrest with ⟨he, hsame⟩ | hback
      · exact Or.inl ⟨he, hsame.trans (hdone fs)⟩
      · exact Or.inr hback

/-- Harmless steps that leave the file beside with the given items. -/
structure Prepares (pid : ℕ) (steps : List (Step β ε)) (d : List β) : Prop where
  harmless : ∀ s ∈ steps, Harmless s
  content : ∀ fs, perform (steps.map Step.op) fs (.temp pid) = some d

/-- The steps that end the replacement. -/
def swap (pid : ℕ) (renameErr syncErr : ε) : List (Step β ε) :=
  [⟨.rename (.temp pid) .target, [.remove (.temp pid)], renameErr⟩, ⟨.syncDir, [], syncErr⟩]

/-- However the run ends, the file is the previous one or the new one, and it is the new
one when the script returns. -/
theorem ends_swap {steps : List (Step β ε)} {d : List β} (h : Prepares pid steps d)
    {renameErr syncErr : ε} (hends : Ends (steps ++ swap pid renameErr syncErr) fs e fs') :
    (e ≠ .returned ∧ fs' .target = fs .target) ∨ fs' .target = some d := by
  have hspared : perform (steps.map Step.op) fs .target = fs .target :=
    perform_spares (fun op hop => by
      obtain ⟨s, hs, rfl⟩ := List.mem_map.mp hop
      exact (h.harmless s hs).done) fs
  have hcontent := h.content fs
  rcases ends_append h.harmless hends with hfront | hends
  · exact Or.inl hfront
  obtain ⟨fs₁, hfs₁⟩ : ∃ fs₁, fs₁ = perform (steps.map Step.op) fs := ⟨_, rfl⟩
  rw [← hfs₁] at hends hspared hcontent
  -- up to the rename the file is the previous one
  have hcleaned : ∀ {done : List (FileOp β)} (n : ℕ), done.Sublist [.remove (.temp pid)] →
      perform done ((FileOp.rename (.temp pid) .target).partly n fs₁) .target = fs .target := by
    intro done n hsub
    exact (perform_spares (fun op hop => spares_removal op (hsub.subset hop)) _).trans hspared
  -- from then on it is the new one
  have hrenamed : (FileOp.rename (.temp pid) .target).apply fs₁ .target = some d := by
    change Function.update (Function.update fs₁ .target (fs₁ (.temp pid))) (.temp pid) none
      .target = _
    rw [Function.update_of_ne (by simp), Function.update_self, hcontent]
  cases hends with
  | killed => exact Or.inl ⟨by simp, hspared⟩
  | failed _ _ _ n hsub | killedCleaning _ _ _ n hsub => exact Or.inl ⟨by simp, hcleaned n hsub⟩
  | step hrest =>
    right
    cases hrest with
    | killed => exact hrenamed
    | failed _ _ _ n hsub | killedCleaning _ _ _ n hsub =>
      rw [List.sublist_nil.mp hsub]
      exact hrenamed
    | step hrest =>
      cases hrest with
      | returned | killed => exact hrenamed

end Swap

end RedisFromScratch.FileSwaps
