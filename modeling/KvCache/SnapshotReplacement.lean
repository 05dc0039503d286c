import KvCache.SnapshotFile

/-! The file-system steps of `WriteSnapshot`, one by one. The new snapshot is written beside
the old one and renamed, which would replace it at once; the old one is deleted first, and
until the rename there is none. -/
namespace KvCache

/-- A call of `WriteSnapshot` that has an effect on the files, and the closing of its file. -/
inductive SnapshotStep where
  | openTmp
  | write (part : Bytes)
  | close
  | deleteTmp
  | deleteOld
  | rename
  deriving DecidableEq, Repr

def SnapshotStep.apply (files : SnapshotFiles) : SnapshotStep → SnapshotFiles
  | .openTmp => { files with tmp := some [] }
  | .write part => { files with tmp := files.tmp.map (· ++ part) }
  | .close => files
  | .deleteTmp => { files with tmp := none }
  | .deleteOld => { files with dat := none }
  | .rename =>
    match files.tmp with
    | none => files
    | some written => ⟨some written,none⟩

/-- The answers, with those of the two `unlink` calls, which the code ignores. -/
structure SnapshotCalls extends SnapshotIo where
  deleteTmp : Bool
  deleteOld : Bool

namespace Snapshot

/-- What each `write` of the loop has taken, and whether the loop gets to the end. -/
def writtenParts (write : Nat → Nat → Option Nat) : Nat → Nat → Bytes → List Bytes × Bool
  | 0, _, remaining => ([],remaining.isEmpty)
  | fuel + 1, call, remaining =>
    if remaining.isEmpty then ([],true)
    else
      match write call remaining.length with
      | some (n + 1) =>
        let (parts,all) := writtenParts write fuel (call + 1) (remaining.drop (n + 1))
        (remaining.take (n + 1) :: parts,all)
      | _ => ([],false)

def writing (parts : List Bytes) : List SnapshotStep :=
  .openTmp :: (parts.map .write ++ [.close])

/-- The steps of one `WriteSnapshot`. A call that fails has no effect and is left out. -/
def steps (io : SnapshotCalls) (entries : List SnapshotEntry) : List SnapshotStep :=
  if !io.openWrite then []
  else
    match writtenParts io.write (content entries).length 0 (content entries) with
    | (parts,false) => writing parts ++ (if io.deleteTmp then [.deleteTmp] else [])
    | (parts,true) => writing parts ++ (if io.deleteOld then [.deleteOld] else []) ++
        (if io.rename then [.rename] else [])

def runSteps (files : SnapshotFiles) (taken : List SnapshotStep) : SnapshotFiles :=
  taken.foldl SnapshotStep.apply files

theorem writeLoop_parts (write : Nat → Nat → Option Nat) (fuel call : Nat) (remaining written : Bytes) :
    writeLoop write fuel call remaining written =
      (written ++ (writtenParts write fuel call remaining).1.flatten,
        (writtenParts write fuel call remaining).2) := by
  induction fuel generalizing call remaining written with
  | zero => simp [writeLoop,writtenParts]
  | succ fuel ih =>
    simp only [writeLoop,writtenParts]
    split
    · simp
    · rcases write call remaining.length with _ | _ | n
      · simp
      · simp
      · simp [ih]

theorem writtenParts_all (write : Nat → Nat → Option Nat) (fuel call : Nat) (remaining : Bytes)
    (all : (writtenParts write fuel call remaining).2 = true) :
    (writtenParts write fuel call remaining).1.flatten = remaining := by
  induction fuel generalizing call remaining with
  | zero =>
    have empty : remaining = [] := by simpa [writtenParts] using all
    simp [writtenParts,empty]
  | succ fuel ih =>
    simp only [writtenParts] at all ⊢
    split
    next empty => simp at empty; simp [empty]
    next some =>
      rw [if_neg some] at all
      rcases accepted : write call remaining.length with _ | _ | n
      · simp [accepted] at all
      · simp [accepted] at all
      · simp only [accepted] at all
        simp [ih _ _ all]

theorem runSteps_writing (files : SnapshotFiles) (parts : List Bytes) :
    runSteps files (writing parts) = { files with tmp := some parts.flatten } := by
  have writes : ∀ written, (parts.map SnapshotStep.write).foldl SnapshotStep.apply
      { files with tmp := some written } = { files with tmp := some (written ++ parts.flatten) } := by
    induction parts with
    | nil => simp
    | cons part parts ih => intro written; simp [SnapshotStep.apply,ih]
  simp [runSteps,writing,SnapshotStep.apply,writes]

theorem rename_not_mem_writing (parts : List Bytes) : SnapshotStep.rename ∉ writing parts := by
  simp [writing]

@[simp] theorem runSteps_nil (files : SnapshotFiles) : runSteps files [] = files := rfl

@[simp] theorem runSteps_cons (files : SnapshotFiles) (step : SnapshotStep) (taken : List SnapshotStep) :
    runSteps files (step :: taken) = runSteps (step.apply files) taken := rfl

@[simp] theorem runSteps_append (files : SnapshotFiles) (first second : List SnapshotStep) :
    runSteps files (first ++ second) = runSteps (runSteps files first) second :=
  List.foldl_append

/-- All steps together are `WriteSnapshot`, where its `unlink` calls succeed; the rename is
among them where it returns `true`. -/
theorem writeSnapshot_eq_runSteps (io : SnapshotCalls) (deleteTmp : io.deleteTmp = true)
    (deleteOld : io.deleteOld = true) (entries : List SnapshotEntry) (files : SnapshotFiles) :
    writeSnapshot io.toSnapshotIo entries files =
      (decide (.rename ∈ steps io entries),runSteps files (steps io entries)) := by
  simp only [writeSnapshot,steps,writeLoop_parts,List.nil_append,deleteTmp,deleteOld]
  by_cases opened : io.openWrite = true
  · rcases writtenParts io.write (content entries).length 0 (content entries) with ⟨parts,_ | _⟩
    · simp [opened,rename_not_mem_writing,runSteps_writing,SnapshotStep.apply]
    · by_cases renamed : io.rename = true
      · simp [opened,renamed,runSteps_writing,SnapshotStep.apply]
      · simp [opened,renamed,rename_not_mem_writing,runSteps_writing,SnapshotStep.apply]
  · simp [opened]

theorem runSteps_dat (files : SnapshotFiles) (taken : List SnapshotStep)
    (kept : .deleteOld ∉ taken) (notYet : .rename ∉ taken) :
    (runSteps files taken).dat = files.dat := by
  induction taken generalizing files with
  | nil => rfl
  | cons step taken ih =>
    rw [List.mem_cons,not_or] at kept notYet
    refine (ih (step.apply files) kept.2 notYet.2).trans ?_
    cases step with
    | openTmp | write | close | deleteTmp => rfl
    | deleteOld => exact absurd rfl kept.1
    | rename => exact absurd rfl notYet.1

theorem runSteps_missing (files : SnapshotFiles) (taken : List SnapshotStep)
    (missing : files.dat = none) (notYet : .rename ∉ taken) : (runSteps files taken).dat = none := by
  induction taken generalizing files with
  | nil => exact missing
  | cons step taken ih =>
    rw [List.mem_cons,not_or] at notYet
    refine ih (step.apply files) ?_ notYet.2
    cases step with
    | openTmp | write | close | deleteTmp => exact missing
    | deleteOld => rfl
    | rename => exact absurd rfl notYet.1

theorem runSteps_deleted (files : SnapshotFiles) (taken : List SnapshotStep)
    (deleted : .deleteOld ∈ taken) (notYet : .rename ∉ taken) : (runSteps files taken).dat = none := by
  obtain ⟨before,after,rfl⟩ := List.append_of_mem deleted
  rw [runSteps_append]
  refine runSteps_missing (SnapshotStep.deleteOld.apply (runSteps files before)) after rfl ?_
  exact fun member => notYet (List.mem_append_right _ (List.mem_cons_of_mem _ member))

theorem take_of_last_mem {α : Type} (front : List α) (a : α) (k : Nat) (fresh : a ∉ front)
    (member : a ∈ (front ++ [a]).take k) : (front ++ [a]).take k = front ++ [a] := by
  refine List.take_of_length_le ?_
  by_contra short
  rw [List.length_append,List.length_singleton] at short
  rw [List.take_append_of_le_length (by omega)] at member
  exact fresh (List.mem_of_mem_take member)

/-- The rename is the last step, and what it renames is all of the new content. -/
theorem steps_renamed (io : SnapshotCalls) (entries : List SnapshotEntry)
    (renamed : .rename ∈ steps io entries) :
    ∃ front, steps io entries = front ++ [.rename] ∧ .rename ∉ front ∧
      ∀ files, (runSteps files front).tmp = some (content entries) := by
  have all := writtenParts_all io.write (content entries).length 0 (content entries)
  unfold steps at renamed ⊢
  by_cases opened : io.openWrite = true
  · rcases found : writtenParts io.write (content entries).length 0 (content entries)
      with ⟨parts,_ | _⟩
    · cases deleted : io.deleteTmp <;> simp [found,opened,deleted,rename_not_mem_writing] at renamed
    · have last : io.rename = true := by
        by_contra kept
        cases deleted : io.deleteOld <;>
          simp [found,opened,deleted,kept,rename_not_mem_writing] at renamed
      have whole : parts.flatten = content entries := by simpa [found] using all
      refine ⟨writing parts ++ (if io.deleteOld then [.deleteOld] else []),by simp [opened,last],?_,?_⟩
      · cases io.deleteOld <;> simp [rename_not_mem_writing]
      · intro files
        cases io.deleteOld <;> simp [runSteps_writing,whole,SnapshotStep.apply]
  · simp [opened] at renamed

theorem runSteps_renamed (io : SnapshotCalls) (entries : List SnapshotEntry) (files : SnapshotFiles)
    (k : Nat) (renamed : .rename ∈ (steps io entries).take k) :
    (runSteps files ((steps io entries).take k)).dat = some (content entries) := by
  obtain ⟨front,shape,fresh,written⟩ := steps_renamed io entries (List.mem_of_mem_take renamed)
  rw [shape] at renamed ⊢
  rw [take_of_last_mem front _ k fresh renamed,runSteps_append]
  simp [SnapshotStep.apply,written files]

/-- The snapshot is replaced atomically but for one gap. Stopped after any of its steps, or
by a step that fails, `WriteSnapshot` leaves the old or the new snapshot exactly where it has not
deleted the old one without renaming the new one. -/
theorem old_or_new_iff (io : SnapshotCalls) (files : SnapshotFiles) (old new : List SnapshotEntry)
    (loads : load files.dat = .ok (some old)) (small : ∀ e ∈ new, e.Small)
    (count : new.length < 2 ^ 32) (k : Nat) :
    (load (runSteps files ((steps io new).take k)).dat = .ok (some old) ∨
        load (runSteps files ((steps io new).take k)).dat = .ok (some new)) ↔
      (.deleteOld ∈ (steps io new).take k → .rename ∈ (steps io new).take k) := by
  by_cases renamed : .rename ∈ (steps io new).take k
  · rw [runSteps_renamed io new files k renamed]
    exact iff_of_true (.inr (readSnapshot_content new small count)) fun _ => renamed
  by_cases deleted : .deleteOld ∈ (steps io new).take k
  · rw [runSteps_deleted files _ deleted renamed]
    simp [load,deleted,renamed]
  · rw [runSteps_dat files _ deleted renamed]
    exact iff_of_true (.inl loads) fun member => absurd member deleted

def oneEntry : List SnapshotEntry := [⟨ascii "a",ascii "1"⟩]

def twoEntries : List SnapshotEntry := [⟨ascii "a",ascii "2"⟩,⟨ascii "b",ascii "3"⟩]

def allSucceed : SnapshotCalls := ⟨⟨true,fun _ count => some count,true⟩,true,true⟩

/-- Stopped with the new snapshot written and the old one in its place. -/
theorem old_or_new_iff_written :
    load (runSteps ⟨some (content oneEntry),none⟩ ((steps allSucceed twoEntries).take 3)).dat =
        .ok (some oneEntry) ∨
      load (runSteps ⟨some (content oneEntry),none⟩ ((steps allSucceed twoEntries).take 3)).dat =
        .ok (some twoEntries) :=
  (old_or_new_iff allSucceed ⟨some (content oneEntry),none⟩ oneEntry twoEntries
    (readSnapshot_content oneEntry (by decide) (by decide)) (by decide) (by decide) 3).mpr
    (by decide +kernel)

/-- Stopped behind the delete, or by a rename that fails, there is no snapshot at all. -/
theorem deleted_before_rename :
    load (some (content oneEntry)) = .ok (some oneEntry) ∧
      load (runSteps ⟨some (content oneEntry),none⟩ ((steps allSucceed twoEntries).take 4)).dat =
        .ok none ∧
      writeSnapshot ⟨true,fun _ count => some count,false⟩ twoEntries ⟨some (content oneEntry),none⟩ =
        (false,⟨none,some (content twoEntries)⟩) := by
  have loads := readSnapshot_content oneEntry (by decide) (by decide)
  have missing : (runSteps ⟨some (content oneEntry),none⟩
      ((steps allSucceed twoEntries).take 4)).dat = none := by decide +kernel
  exact ⟨loads,by rw [missing]; rfl,by decide +kernel⟩

end Snapshot

end KvCache
