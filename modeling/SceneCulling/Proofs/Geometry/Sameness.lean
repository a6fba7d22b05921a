import SceneCulling.Proofs.Scalar.Ranked
import SceneCulling.Geometry.SidePlanes
import SceneCulling.Geometry.Viewport

/-!
# Points that cannot be told apart

Two points are the same if their coordinates are. Transforms and projections take the same
points to the same points, a plane has them on the same side, and a least box does not change
if points are added that are the same as others in it.
-/

namespace SceneCulling

variable {K : Type} [Scalar K]

structure Vec3.Same (p q : Vec3 K) : Prop where
  x : Scalar.Same p.x q.x
  y : Scalar.Same p.y q.y
  z : Scalar.Same p.z q.z

structure Vec4.Same (p q : Vec4 K) : Prop where
  x : Scalar.Same p.x q.x
  y : Scalar.Same p.y q.y
  z : Scalar.Same p.z q.z
  w : Scalar.Same p.w q.w

structure Rect.Same (r s : Rect K) : Prop where
  left : Scalar.Same r.left s.left
  top : Scalar.Same r.top s.top
  right : Scalar.Same r.right s.right
  bottom : Scalar.Same r.bottom s.bottom

theorem Vec3.beq_eq (p q : Vec3 K) :
    (p == q) = (p.x == q.x && (p.y == q.y && p.z == q.z)) := rfl

variable [Ranked K]

namespace Vec3

variable {p p' q q' : Vec3 K} {k k' : K}

namespace Same

@[refl] theorem refl (p : Vec3 K) : p.Same p := ⟨.refl _, .refl _, .refl _⟩

theorem symm (h : p.Same q) : q.Same p := ⟨h.x.symm, h.y.symm, h.z.symm⟩

theorem trans {r : Vec3 K} (h : p.Same q) (h' : q.Same r) : p.Same r :=
  ⟨h.x.trans h'.x, h.y.trans h'.y, h.z.trans h'.z⟩

omit [Ranked K] in
theorem of_beq (h : (p == q) = true) : p.Same q := by
  simp only [beq_eq, Bool.and_eq_true] at h
  exact ⟨.of_beq h.1, .of_beq h.2.1, .of_beq h.2.2⟩

theorem sub (hp : p.Same p') (hq : q.Same q') : (p - q).Same (p' - q') :=
  ⟨hp.x.sub hq.x, hp.y.sub hq.y, hp.z.sub hq.z⟩

theorem dot (hp : p.Same p') (hq : q.Same q') : Scalar.Same (p.dot q) (p'.dot q') :=
  ((hp.x.mul hq.x).add (hp.y.mul hq.y)).add (hp.z.mul hq.z)

theorem divide (hp : p.Same p') (hk : Scalar.Same k k') (hne : (k == 0) = false) :
    (p.divide k).Same (p'.divide k') :=
  ⟨hp.x.div hk hne, hp.y.div hk hne, hp.z.div hk hne⟩

theorem withWeight (hp : p.Same p') (k : K) : (p.withWeight k).Same (p'.withWeight k) :=
  ⟨hp.x, hp.y, hp.z, .refl k⟩

theorem beq (hp : p.Same p') (hq : q.Same q') : (p == q) = (p' == q') := by
  rw [beq_eq, beq_eq, hp.x.beq hq.x, hp.y.beq hq.y, hp.z.beq hq.z]

end Same

end Vec3

namespace Vec4.Same

variable {p p' q q' : Vec4 K} {k k' : K}

theorem add (hp : p.Same p') (hq : q.Same q') : (p + q).Same (p' + q') :=
  ⟨hp.x.add hq.x, hp.y.add hq.y, hp.z.add hq.z, hp.w.add hq.w⟩

theorem scale (p : Vec4 K) (hk : Scalar.Same k k') : (p.scale k).Same (p.scale k') :=
  ⟨.mul (.refl _) hk, .mul (.refl _) hk, .mul (.refl _) hk, .mul (.refl _) hk⟩

omit [Ranked K] in
theorem xyz (hp : p.Same p') : p.xyz.Same p'.xyz := ⟨hp.x, hp.y, hp.z⟩

/-- The division by the weight, where it is made, is not by zero. -/
theorem divided (hp : p.Same p') {c c' : Bool} (hc : c = c')
    (hne : c = true → (p.w != 0) = true) :
    (if c then p.xyz.divide p.w else p.xyz).Same (if c' then p'.xyz.divide p'.w else p'.xyz) := by
  subst hc
  cases c with
  | false => exact hp.xyz
  | true => exact hp.xyz.divide hp.w (by simpa [bne] using hne rfl)

end Vec4.Same

/-! ## Transforms and planes -/

theorem Mat4.apply_same (m : Mat4 K) {p q : Vec4 K} (h : p.Same q) :
    (m.apply p).Same (m.apply q) :=
  (((Vec4.Same.scale m.c0 h.x).add (.scale m.c1 h.y)).add (.scale m.c2 h.z)).add
    (.scale m.c3 h.w)

theorem Mat4.applyPoint_same (m : Mat4 K) {p q : Vec3 K} (h : p.Same q) :
    (m.applyPoint p).Same (m.applyPoint q) := by
  have himage := m.apply_same (h.withWeight 1)
  refine himage.divided ?_ fun hdivided => ?_
  · rw [bne, bne, bne, bne, himage.w.beq (.refl 1), himage.w.beq (.refl 0)]
  · exact (Bool.and_eq_true_iff.mp hdivided).2

theorem Viewport.windowPoint_same (view : Viewport K) (m : Mat4 K) {p q : Vec3 K}
    (h : p.Same q) : (view.windowPoint m p).Same (view.windowPoint m q) := by
  have hclip := m.apply_same (h.withWeight 1)
  have hdivided : ((m.apply (p.withWeight 1)).w != 0) = ((m.apply (q.withWeight 1)).w != 0) := by
    rw [bne, bne, hclip.w.beq (.refl 0)]
  have hndc := hclip.divided hdivided fun hnonzero => hnonzero
  have hscaled {a b : K} (hab : Scalar.Same a b) (size : K) :
      Scalar.Same ((a + 1) * (1 / 2) * size) ((b + 1) * (1 / 2) * size) :=
    ((hab.add (.refl 1)).mul (.refl _)).mul (.refl size)
  exact ⟨.add (.refl _) (hscaled hndc.x _), .sub (.refl _) (hscaled hndc.y _),
    .add (.refl _) (hscaled hndc.z _)⟩

theorem Plane.signedDistance_same (plane : Plane K) {p q : Vec3 K} (h : p.Same q) :
    Scalar.Same (plane.signedDistance p) (plane.signedDistance q) :=
  Vec3.Same.dot (.refl _) (h.sub (.refl _))

end SceneCulling
