import Mathlib
import TypedLisp.Proofs.Depth
import TypedLisp.Proofs.Reading.Layout

/-!
# Layout has no meaning

White space, line breaks and comments between tokens change nothing but spans, and no stage looks at
spans.  So what is shown of a program, the kind of error that it ends with and whether it ends at
all depend on its lexemes alone.
-/

namespace TypedLisp

variable {α : Type}

open Outcome (Follows)

/-- Two outcomes are the same one but for the places that errors point at: the same answers, errors
of one kind and for one reason, or no end. -/
inductive Outcome.Alike : Outcome α → Outcome α → Prop
  | answer (a : α) : Alike (.ok a) (.ok a)
  | error {err err' : Error} (hkind : err.title = err'.title) (hcause : err.Agrees err') :
    Alike (.error (.raised err)) (.error (.raised err'))
  | endless : Alike (.error .endless) (.error .endless)

lemma Error.title_erase (e : Erasure) (err : Error) : (err.erase e).title = err.title := by
  cases h : e.spans <;> cases err <;> simp [Error.erase, h, Error.title]

namespace Outcome

variable {x x' y : Outcome α}

lemma Alike.of_agrees {err err' : Error} (h : err.Agrees err') :
    Alike (.error (.raised err) : Outcome α) (.error (.raised err')) :=
  .error (by rw [← err.title_erase .ofSpans, ← err'.title_erase .ofSpans, h]) h

/-- Outcomes that one outcome follows are alike. -/
lemma Follows.alike (h : x.Follows False .ofSpans id y) (h' : x'.Follows False .ofSpans id y) :
    x.Alike x' := by
  rcases h.eq_of_not id with ⟨a, rfl, rfl⟩ | ⟨err, rfl, rfl⟩ | ⟨rfl, rfl⟩
  · rcases h'.eq_of_not id with ⟨a', rfl, hy⟩ | ⟨err', rfl, hy⟩ | ⟨rfl, hy⟩
    · obtain rfl : a = a' := Except.ok.inj hy
      exact .answer a
    · cases hy
    · cases hy
  · rcases h'.eq_of_not id with ⟨a', rfl, hy⟩ | ⟨err', rfl, hy⟩ | ⟨rfl, hy⟩
    · cases hy
    · exact .of_agrees (Failure.raised.inj (Except.error.inj hy))
    · cases hy
  · rcases h'.eq_of_not id with ⟨a', rfl, hy⟩ | ⟨err', rfl, hy⟩ | ⟨rfl, hy⟩
    · cases hy
    · cases hy
    · exact .endless

end Outcome

/-- At every depth, the same is shown of two layouts of a source. -/
theorem render_alike {source source' : String} (h : SameLexemes source source') (depth : Nat)
    (moduleName : String) (stage : Stage) (types : Bool) :
    (render depth source moduleName stage types).Alike
      (render depth source' moduleName stage types) := by
  rw [render_eq, render_eq]
  have hread := read_agree (H := Empty) h
  generalize read source = x, read source' = y at hread
  cases hread with
  | error herr => exact .of_agrees herr
  | @ok forms forms' hforms =>
    have hfollows := fun forms => renderForms_follows (T := False) (e := .ofSpans) rfl
      (.inl (Eq.refl depth)) forms moduleName stage types
    have hforms' := hfollows forms'
    rw [← Reader.map_erase_of_agrees hforms] at hforms'
    exact (hfollows forms).alike hforms'

/-- **Layout has no meaning.**  Two sources that are cut into the same kinds and texts of tokens,
whatever is between them, show the same lines at every stage, or fail with the same kind of error,
or both have no end. -/
theorem exists_settles_render_alike {source source' : String} (h : SameLexemes source source')
    (moduleName : String) (stage : Stage) (types : Bool) :
    ∃ r r', Settles (fun depth => render depth source moduleName stage types) r ∧
      Settles (fun depth => render depth source' moduleName stage types) r' ∧ r.Alike r' := by
  obtain ⟨r, hr⟩ := (deepens_render source moduleName stage types).exists_settles
  obtain ⟨r', hr'⟩ := (deepens_render source' moduleName stage types).exists_settles
  refine ⟨r, r', hr, hr', ?_⟩
  obtain ⟨depth, rfl, rfl⟩ := hr.exists_depth hr'
  exact render_alike h depth moduleName stage types

/-- A source on one line, and with line breaks and comments. -/
theorem exists_settles_render_alike_of_comments :
    SameLexemes "(def inc (lambda (x) (+ x 1))) (inc 'y)"
        "(def inc ; the successor\n  (lambda (x)\n    (+ x 1)))\n\n(inc 'y) ; fails" ∧
      ∀ (moduleName : String) (stage : Stage) (types : Bool), ∃ r r',
        Settles (fun depth => render depth "(def inc (lambda (x) (+ x 1))) (inc 'y)" moduleName
          stage types) r ∧
        Settles (fun depth => render depth
          "(def inc ; the successor\n  (lambda (x)\n    (+ x 1)))\n\n(inc 'y) ; fails" moduleName
          stage types) r' ∧ r.Alike r' := by
  have h : SameLexemes "(def inc (lambda (x) (+ x 1))) (inc 'y)"
      "(def inc ; the successor\n  (lambda (x)\n    (+ x 1)))\n\n(inc 'y) ; fails" := by
    unfold SameLexemes
    cbv
  exact ⟨h, fun moduleName stage types => exists_settles_render_alike h moduleName stage types⟩

end TypedLisp
