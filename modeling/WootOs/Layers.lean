import Mathlib.Data.List.Basic

/-!
# Pictures made of layers

A picture is painted from a list of layers, bottom to top. Each layer paints
over the places that it covers. A canvas that shows an older picture is put
right by painting all layers again wherever the picture may have changed, as
long as the lowest layer hides what was there before.
-/

namespace WootOs.Layers

/-- A layer over places A with values P. -/
structure Layer (A P : Type) where
  /-- The places it covers. -/
  covers : A → Bool
  /-- What a place shows once the layer is painted over a value. -/
  paint : A → P → P

variable {A P : Type} {l l' : Layer A P} {ls below above : List (Layer A P)} {a : A} {v w : P}

/-- Paint a layer over one place. -/
def Layer.over (l : Layer A P) (a : A) (v : P) : P := if l.covers a then l.paint a v else v

/-- All layers painted over one place. -/
def picture (ls : List (Layer A P)) (a : A) (v : P) : P := ls.foldl (fun v l => l.over a v) v

/-- A layer that hides what is below it. -/
def Layer.Opaque (l : Layer A P) : Prop := ∀ a v w,l.paint a v = l.paint a w

@[simp] theorem picture_nil : picture ([] : List (Layer A P)) a v = v := rfl

theorem picture_cons : picture (l :: ls) a v = picture ls a (l.over a v) := rfl

theorem picture_append : picture (below ++ above) a v = picture above a (picture below a v) :=
  List.foldl_append ..

theorem over_of_not_covers (h : l.covers a = false) : l.over a v = v := by
  rw [Layer.over,h,if_neg Bool.false_ne_true]

/-- A layer adds nothing where it covers nothing. -/
theorem picture_insert (h : l.covers a = false) :
    picture (below ++ l :: above) a v = picture (below ++ above) a v := by
  rw [picture_append,picture_cons,over_of_not_covers h,picture_append]

/-- A layer may change where neither the old nor the new one covers anything. -/
theorem picture_change (h : l.covers a = false) (h' : l'.covers a = false) :
    picture (below ++ l :: above) a v = picture (below ++ l' :: above) a v := by
  rw [picture_insert h,picture_insert h']

/-- Under a lowest layer that is opaque the canvas does not matter. -/
theorem picture_covered (h : l.Opaque) (hcovers : l.covers a = true) :
    picture (l :: ls) a v = picture (l :: ls) a w := by
  rw [picture_cons,picture_cons,Layer.over,Layer.over,if_pos hcovers,if_pos hcovers,h a v w]

end WootOs.Layers
