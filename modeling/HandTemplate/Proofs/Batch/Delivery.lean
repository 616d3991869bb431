import Mathlib
import HandTemplate.CommandLine.Batch
import HandTemplate.Proofs.Files.Changes

/-!
# Delivering a product in a session

A product that is delivered to a file is that file's content afterwards. All other files stay as
they are, and nothing is printed.
-/

namespace HandTemplate

namespace CommandLine

/-! ## Actions in a session -/

section
variable {α β : Type} (s : Session) (path text : String)

/-- Of two actions in a row, the second one goes on in the session that the first one leaves. -/
theorem bind_apply (x : StateM Session α) (next : α → StateM Session β) :
    (x >>= next) s = next (x s).1 (x s).2 := rfl

/-- What only gives a value leaves the session as it is. -/
theorem pure_apply (a : α) : (pure a : StateM Session α) s = (a, s) := rfl

/-- A text is read from the tree, and the session stays as it is. -/
theorem readText_apply :
    Host.readText (m := StateM Session) path s = (s.tree.read s.place path, s) := rfl

/-- A directory is made in the tree where that is possible, and nothing else changes. -/
theorem makeDirectory_apply : Host.makeDirectory (m := StateM Session) path s =
    Session.change (fun tree place => tree.makeDirectory place path) s := rfl

/-- A text is written into the tree where that is possible, and nothing else changes. -/
theorem writeText_apply : Host.writeText (m := StateM Session) path text s =
    Session.change (fun tree place => tree.write place path text) s := rfl

/-- A message is added to those that were printed before. -/
theorem report_apply : report (m := StateM Session) text s =
    ((), { s with messages := s.messages ++ (text ++ "\n") }) := rfl

end

/-! ## Making directories -/

/-- A session after some directories were made. -/
def Session.Extends (s s' : Session) : Prop :=
  ∃ tree, s' = { s with tree } ∧ s.tree.Extends tree

/-- A session extends itself. -/
theorem Session.Extends.refl (s : Session) : s.Extends s := ⟨s.tree, rfl, .refl s.tree⟩

/-- What extends an extension of a session extends the session. -/
theorem Session.Extends.trans {s s' s'' : Session} (h : s.Extends s') (h' : s'.Extends s'') :
    s.Extends s'' := by
  obtain ⟨tree, rfl, htree⟩ := h
  obtain ⟨tree', rfl, htree'⟩ := h'
  exact ⟨tree', rfl, htree.trans htree'⟩

/-- Whether or not a directory can be made, the session is only extended. -/
theorem extends_makeDirectory (path : String) (s : Session) :
    s.Extends (Host.makeDirectory (m := StateM Session) path s).2 := by
  rw [makeDirectory_apply, Session.change]
  split
  next tree htree => exact ⟨tree, rfl, FileTree.extends_makeDirectory htree⟩
  next => exact .refl s

/-- Whether or not directories can be made, all files stay as they are. -/
theorem extends_makeDirectories (steps : List String) (s : Session) :
    s.Extends (makeDirectories (m := StateM Session) steps s).2 := by
  -- By induction on the steps, the innermost one first.
  induction steps generalizing s with
  | nil => exact .refl s
  | cons step outer ih =>
    unfold makeDirectories
    split_ifs with hidle
    · exact ih s
    have hfirst := extends_makeDirectory (Path.ofSteps (step :: outer).reverse) s
    rw [bind_apply]
    generalize Host.makeDirectory (m := StateM Session) _ s = first at hfirst ⊢
    obtain ⟨e | ⟨⟩, s'⟩ := first
    · cases e with
      | notFound =>
        -- Only a directory that is missing is tried again, after the ones around it.
        have houter := ih s'
        dsimp only
        rw [bind_apply]
        generalize makeDirectories (m := StateM Session) outer s' = second at houter ⊢
        obtain ⟨e | ⟨⟩, s''⟩ := second
        · exact hfirst.trans houter
        · exact (hfirst.trans houter).trans (extends_makeDirectory ..)
      | _ => exact hfirst
    · exact hfirst

/-! ## Delivering -/

/-- A session after a file was written: every path leads where it led before, and the file alone has
another content. -/
structure Session.Wrote (s s' : Session) (path content : String) : Prop where
  /-- The session is in the same directory. -/
  place : s'.place = s.place
  /-- Nothing was printed. -/
  out : s'.out = s.out
  /-- No message was printed. -/
  messages : s'.messages = s.messages
  /-- No path leads elsewhere. -/
  grows : s.tree.Grows s'.tree
  /-- The path is not too long. -/
  isTooLong : Path.isTooLong path = false
  /-- The path leads to the file, and no other file has changed. -/
  file : ∃ names, s'.tree.follow (Path.start s.place path) (Path.steps path) = .ok names ∧
    ∀ other, s'.tree.fileAt other = if other = names then some content else s.tree.fileAt other

/-- A file that was written is read back. -/
theorem Session.Wrote.read {s s' : Session} {path content : String}
    (h : s.Wrote s' path content) : s'.tree.read s'.place path = .ok content := by
  obtain ⟨names, hfollow, hfiles⟩ := h.file
  rw [h.place]
  exact FileTree.read_eq_ok.mpr ⟨h.isTooLong, names, hfollow, by rw [hfiles, if_pos rfl]⟩

/-- A product that is delivered to a path which ends with a name is written there. -/
theorem wrote_deliver {s s' : Session} {path product name : String} {before : List String}
    (hsteps : Path.steps path = before ++ [name]) (hname : Path.IsName name)
    (h : deliver (m := StateM Session) (some path) product s = (.ok (), s')) :
    s.Wrote s' path product := by
  -- Delivering fails where a directory cannot be made; otherwise the session is only extended so
  -- far.
  have hmade := extends_makeDirectories (Path.steps (Path.parent path)).reverse s
  unfold deliver at h
  dsimp only at h
  rw [bind_apply] at h
  generalize makeDirectories (m := StateM Session) _ s = made at hmade h
  obtain ⟨e | ⟨⟩, s₁⟩ := made
  · cases h
  obtain ⟨tree, rfl, htree⟩ := hmade
  dsimp only at h
  rw [bind_apply, writeText_apply, Session.change] at h
  split at h
  next tree' hwrite =>
    cases h
    obtain ⟨hgrows, hlong, names, hfollow, hfiles⟩ := FileTree.write_eq_ok hsteps hname hwrite
    -- The directories around the file were made before it, and making them changed no file.
    refine ⟨rfl, rfl, rfl, htree.toGrows.trans hgrows, hlong, names, hfollow, fun other => ?_⟩
    rw [hfiles, htree.fileAt]
  next => cases h

/-- Delivering prints no message. -/
theorem messages_deliver (target : Option String) (product : String) (s : Session) :
    (deliver (m := StateM Session) target product s).2.messages = s.messages := by
  cases target with
  | none => rfl
  | some path =>
    -- Neither making directories nor writing the file prints anything.
    have hmade := extends_makeDirectories (Path.steps (Path.parent path)).reverse s
    unfold deliver
    dsimp only
    rw [bind_apply]
    generalize makeDirectories (m := StateM Session) _ s = made at hmade ⊢
    obtain ⟨result, s₁⟩ := made
    obtain ⟨tree, rfl, -⟩ := hmade
    cases result with
    | error e => rfl
    | ok =>
      dsimp only
      rw [bind_apply, writeText_apply, Session.change]
      split <;> rfl

end CommandLine

end HandTemplate
