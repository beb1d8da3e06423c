import Downhill.Proofs.Search.WolfeBrackets

/-!
# The Wolfe-Powell search on a parabola

Along a ray a quadratic function is a parabola: the decrease is sufficient up to the step
`2 (1 - σ) |s| / k`, and the curvature condition holds from `(1 - ρ) |s| / k` on, where `s` is the
slope at the start and `k` the curvature. As `σ < ρ`, the second bound is less than half of the
first, so that a step whose double has no sufficient decrease satisfies the curvature condition
(`Ray.Bends.curvature_of_double`). The bracket that halving or doubling finds thus needs no
bisection, and the outcome of a search can be told from `s`, `k` and the cap.

* `search_on_parabola`: how both entry points end on a quadratic function, for every direction of
  descent and all valid parameters.
-/

namespace Downhill

theorem SearchParams.lt_of_validateWolfePowell {params : SearchParams ℝ}
    (h : params.validateWolfePowell = .ok ()) :
    params.sigma < 1 / 2 ∧ params.sigma < params.rho ∧ params.rho < 1 := by
  unfold validateWolfePowell at h
  split_ifs at h with hsigma hrho
  rw [Bool.not_eq_true', Bool.not_eq_false, Bool.and_eq_true, decide_eq_true_eq,
    decide_eq_true_eq] at hsigma hrho
  exact ⟨by rw [← Scalar.half_real]; exact hsigma.2, hrho⟩

namespace WolfePowell

variable {σ : Type} {n : Nat} {F : Vec ℝ n → ℝ} {G : Vec ℝ n → Vec ℝ n}

namespace Ray

/-! ### Parabolas -/

/-- Along the ray the value is a parabola with curvature `k`, and the gradient gives its slope. -/
structure Bends (ray : Ray σ ℝ n) (F : Vec ℝ n → ℝ) (G : Vec ℝ n → Vec ℝ n) (k : ℝ) : Prop where
  /-- The value at a step. -/
  value : ∀ t, F (ray.pointAt t) = ray.value + t * ray.slope + t ^ 2 / 2 * k
  /-- The slope at a step. -/
  slope : ∀ t, (G (ray.pointAt t)).dot ray.direction = ray.slope + t * k

/-- Where the curvature `k` is positive, the step at which the slope has shrunk to the part `c` of
the slope at the start. -/
noncomputable def reach (ray : Ray σ ℝ n) (c k : ℝ) : ℝ := (1 - c) * |ray.slope| / k

variable {ray : Ray σ ℝ n} {c k t : ℝ}

section Conditions

variable (h : ray.Bends F G k) (hdescent : ray.slope < 0)

include h hdescent

theorem Bends.sufficient_iff (ht : 0 < t) :
    ray.Sufficient F t ↔ t * k ≤ 2 * (1 - ray.params.sigma) * |ray.slope| := by
  unfold Sufficient
  rw [h.value, abs_of_neg hdescent]
  -- multiplying by half the step leads from one inequality to the other
  constructor
  · intro hle
    refine le_of_mul_le_mul_left ?_ (half_pos ht)
    linarith
  · intro hle
    have hscaled := mul_le_mul_of_nonneg_left hle (half_pos ht).le
    linarith

theorem Bends.curvature_iff :
    ray.slopeBound ≤ (G (ray.pointAt t)).dot ray.direction ↔
      (1 - ray.params.rho) * |ray.slope| ≤ t * k := by
  unfold slopeBound
  rw [h.slope, abs_of_neg hdescent]
  constructor <;> intro hle <;> linarith

/-- A step whose double has no sufficient decrease is long enough for the curvature condition. -/
theorem Bends.curvature_of_double (hrho : ray.params.sigma < ray.params.rho) (ht : 0 < t)
    (hfail : ¬ ray.Sufficient F (t * 2)) :
    ray.slopeBound ≤ (G (ray.pointAt t)).dot ray.direction := by
  rw [h.sufficient_iff hdescent (mul_pos ht two_pos), not_le] at hfail
  -- the double is above `2 (1 - σ) |s| / k`, so the step is above `(1 - ρ) |s| / k`
  have hgap : (1 - ray.params.rho) * |ray.slope| ≤ (1 - ray.params.sigma) * |ray.slope| := by
    gcongr
  rw [h.curvature_iff hdescent]
  linarith

/-- Where the curvature is not positive, every decrease is sufficient. -/
theorem Bends.sufficient_of_nonpos (hsigma : ray.params.sigma < 1) (hk : k ≤ 0) (ht : 0 < t) :
    ray.Sufficient F t := by
  have hbound : 0 < 2 * (1 - ray.params.sigma) * |ray.slope| :=
    mul_pos (mul_pos two_pos (sub_pos.mpr hsigma)) (abs_pos.mpr hdescent.ne)
  exact (h.sufficient_iff hdescent ht).mpr
    ((mul_nonpos_of_nonneg_of_nonpos ht.le hk).trans hbound.le)

/-- Where the curvature is not positive, the curvature condition holds nowhere. -/
theorem Bends.not_curvature_of_nonpos (hrho : ray.params.rho < 1) (hk : k ≤ 0) (ht : 0 < t) :
    ¬ ray.slopeBound ≤ (G (ray.pointAt t)).dot ray.direction := by
  rw [h.curvature_iff hdescent, not_le]
  exact (mul_nonpos_of_nonneg_of_nonpos ht.le hk).trans_lt
    (mul_pos (sub_pos.mpr hrho) (abs_pos.mpr hdescent.ne))

variable (hk : 0 < k)

include hk

/-- The decrease is sufficient up to twice the step at which the slope has shrunk to its part `σ`. -/
theorem Bends.sufficient_iff_le (ht : 0 < t) :
    ray.Sufficient F t ↔ t ≤ 2 * ray.reach ray.params.sigma k := by
  rw [h.sufficient_iff hdescent ht, reach, mul_div_assoc', ← mul_assoc, le_div_iff₀ hk]

/-- The curvature condition holds from the step on at which the slope has shrunk to its part `ρ`. -/
theorem Bends.curvature_iff_le :
    ray.slopeBound ≤ (G (ray.pointAt t)).dot ray.direction ↔
      ray.reach ray.params.rho k ≤ t := by
  rw [h.curvature_iff hdescent, reach, div_le_iff₀ hk]

end Conditions

theorem reach_pos (hc : c < 1) (hdescent : ray.slope < 0) (hk : 0 < k) : 0 < ray.reach c k :=
  div_pos (mul_pos (sub_pos.mpr hc) (abs_pos.mpr hdescent.ne)) hk

/-- The steps that satisfy both conditions span more than a doubling. -/
theorem reach_rho_lt_reach_sigma (hrho : ray.params.sigma < ray.params.rho)
    (hdescent : ray.slope < 0) (hk : 0 < k) :
    ray.reach ray.params.rho k < ray.reach ray.params.sigma k := by
  have hslope : 0 < |ray.slope| := abs_pos.mpr hdescent.ne
  unfold reach
  gcongr

/-! ### Powers of two below a bound -/

/-- A number below one lies between two halvings of one. -/
theorem exists_halvings {T : ℝ} (hpos : 0 < T) (hlt : T < 1) :
    ∃ m : Nat, 1 / 2 ^ (m + 1) ≤ T ∧ ∀ j ≤ m, T < 1 / 2 ^ j := by
  classical
  have hex : ∃ m : Nat, 1 / 2 ^ m ≤ T := by
    obtain ⟨m, hm⟩ := exists_pow_lt_of_lt_one hpos (one_half_lt_one (α := ℝ))
    exact ⟨m, by rw [← one_div_pow]; exact hm.le⟩
  -- the first such power is not the zeroth, since the number is below one
  obtain ⟨m, hm⟩ : ∃ m, Nat.find hex = m + 1 := by
    refine ⟨Nat.find hex - 1, (Nat.succ_pred_eq_of_pos ((Nat.find_pos hex).mpr ?_)).symm⟩
    rw [pow_zero, div_one, not_le]
    exact hlt
  refine ⟨m, hm ▸ Nat.find_spec hex, fun j hj => not_le.mp (Nat.find_min hex ?_)⟩
  omega

/-- A number of at least one lies between two doublings of one. -/
theorem exists_doublings {T : ℝ} (hle : 1 ≤ T) :
    ∃ m : Nat, T < 2 ^ (m + 1) ∧ ∀ j ≤ m, 2 ^ j ≤ T := by
  classical
  have hex : ∃ m : Nat, T < 2 ^ (m + 1) := by
    obtain ⟨m, hm⟩ := pow_unbounded_of_one_lt T (one_lt_two (α := ℝ))
    exact ⟨m, hm.trans_le (pow_le_pow_right₀ one_le_two (Nat.le_succ m))⟩
  refine ⟨Nat.find hex, Nat.find_spec hex, fun j hj => ?_⟩
  cases j with
  | zero => rwa [pow_zero]
  | succ j => exact not_lt.mp (Nat.find_min hex hj)

/-! ### The search -/

/-- How a search along a parabola with curvature `k` ends. -/
structure Settles (ray : Ray σ ℝ n) (F : Vec ℝ n → ℝ) (G : Vec ℝ n → Vec ℝ n) (k : ℝ)
    (action : Run σ ℝ (Step ℝ n)) : Prop where
  /-- No bracket is bisected. -/
  bisection : action.Records NotBisection
  /-- Where the curvature is not positive, doubling fails at its cap. -/
  concave : k ≤ 0 → action.Raises
    (ray.failure .doubling ray.params.maxIterations (2 ^ ray.params.maxIterations))
  /-- The full step is taken if it is neither too short nor too long. -/
  full : 0 < k → ray.reach ray.params.rho k ≤ 1 → 1 ≤ 2 * ray.reach ray.params.sigma k →
    ∃ tally, action.Computes (ray.stepAt F G 1 tally)
  /-- If the full step is too long, halving gives the largest power of two that is not, provided
  that the cap admits as many halvings. -/
  halved : 0 < k → 2 * ray.reach ray.params.sigma k < 1 → ∃ m : Nat,
    1 / 2 ^ m ≤ 2 * ray.reach ray.params.sigma k ∧
    2 * ray.reach ray.params.sigma k < 1 / 2 ^ m * 2 ∧
    (m ≤ ray.params.maxIterations →
      ∃ tally, action.Computes (ray.stepAt F G (1 / 2 ^ m) tally)) ∧
    (ray.params.maxIterations < m → action.Raises
      (ray.failure .halving ray.params.maxIterations (1 / 2 ^ ray.params.maxIterations)))
  /-- If the full step is too short, doubling gives the largest power of two that is not too long,
  provided that the cap admits as many doublings and the one that is taken back. -/
  doubled : 0 < k → 1 < ray.reach ray.params.rho k → ∃ m : Nat,
    2 ^ m ≤ 2 * ray.reach ray.params.sigma k ∧ 2 * ray.reach ray.params.sigma k < 2 ^ m * 2 ∧
    (m + 1 ≤ ray.params.maxIterations →
      ∃ tally, action.Computes (ray.stepAt F G (2 ^ m) tally)) ∧
    (ray.params.maxIterations < m + 1 → action.Raises
      (ray.failure .doubling ray.params.maxIterations (2 ^ ray.params.maxIterations)))

/-- A search on a parabola with valid parameters along a direction of descent ends like this. -/
theorem Bends.settles (h : ray.Bends F G k) (hf : ray.objective.Evaluates F G)
    (hvalue : ∀ y, (ray.objective.value y).Records NotBisection)
    (hgradient : ∀ y, (ray.objective.gradient y).Records NotBisection) (hdescent : ray.slope < 0)
    (hvalid : ray.params.validateWolfePowell = .ok ()) (tally : Tally) :
    ray.Settles F G k (ray.search tally) := by
  obtain ⟨hhalf, hrho, hrho'⟩ := SearchParams.lt_of_validateWolfePowell hvalid
  have hsigma : ray.params.sigma < 1 := hhalf.trans one_half_lt_one
  have hbracket : ∀ {t : ℝ}, 0 < t → ¬ ray.Sufficient F (t * 2) →
      ray.slopeBound ≤ (G (ray.pointAt t)).dot ray.direction :=
    fun ht => h.curvature_of_double hdescent hrho ht
  -- no bisection; then the cases of no positive curvature, the full step, halvings and doublings
  refine ⟨records_search_of_double hf hvalue hgradient (fun _ => hbracket) tally, fun hk => ?_,
    fun hk hshort hlong => ?_, fun hk hlong => ?_, fun hk hshort => ?_⟩
  -- every decrease is sufficient, but the curve never flattens
  · exact raises_search_of_doublings hf tally
      (h.not_curvature_of_nonpos hdescent hrho' hk one_pos)
      fun j _ => h.sufficient_of_nonpos hdescent hsigma hk (by positivity)
  · exact ⟨_, computes_search_of_curvature hf
      ((h.sufficient_iff_le hdescent hk one_pos).mpr hlong)
      ((h.curvature_iff_le hdescent hk).mpr hshort) tally⟩
  · -- the first `m` halvings and the full step are too long
    obtain ⟨m, hle, hlt⟩ := exists_halvings (mul_pos two_pos (reach_pos hsigma hdescent hk)) hlong
    have hpos : ∀ j : Nat, (0 : ℝ) < 1 / 2 ^ j := fun j => by positivity
    have hfail : ∀ j ≤ m, ¬ ray.Sufficient F (1 / 2 ^ j) := fun j hj hsuff =>
      (hlt j hj).not_ge ((h.sufficient_iff_le hdescent hk (hpos j)).mp hsuff)
    have htwice : (1 : ℝ) / 2 ^ (m + 1) * 2 = 1 / 2 ^ m := by
      rw [pow_succ]
      field_simp
    refine ⟨m + 1, hle, htwice ▸ hlt m le_rfl, fun hcap => ?_, fun hcap => ?_⟩
    · exact computes_search_of_halvings hf tally hcap hfail
        ((h.sufficient_iff_le hdescent hk (hpos _)).mpr hle)
        (hbracket (hpos _) (htwice ▸ hfail m le_rfl))
    · exact raises_search_of_halvings hf tally fun j hj => hfail j (by omega)
  · -- the full step and the first `m` doublings are not too long
    have hspan := reach_rho_lt_reach_sigma hrho hdescent hk
    obtain ⟨m, hlt, hle⟩ :=
      exists_doublings (T := 2 * ray.reach ray.params.sigma k) (by linarith)
    have hpos : ∀ j : Nat, (0 : ℝ) < 2 ^ j := fun j => by positivity
    have hsuff : ∀ j ≤ m, ray.Sufficient F (2 ^ j) := fun j hj =>
      (h.sufficient_iff_le hdescent hk (hpos j)).mpr (hle j hj)
    have hfail : ¬ ray.Sufficient F (2 ^ (m + 1)) := fun hsuff =>
      hlt.not_ge ((h.sufficient_iff_le hdescent hk (hpos _)).mp hsuff)
    have hflat : ¬ ray.slopeBound ≤ (G (ray.pointAt 1)).dot ray.direction := fun hcurv =>
      hshort.not_ge ((h.curvature_iff_le hdescent hk).mp hcurv)
    refine ⟨m, hle m le_rfl, (pow_succ (2 : ℝ) m) ▸ hlt, fun hcap => ?_, fun hcap => ?_⟩
    · exact computes_search_of_doublings hf tally hflat hcap hsuff hfail
        (hbracket (hpos m) ((pow_succ (2 : ℝ) m) ▸ hfail))
    · exact raises_search_of_doublings hf tally hflat fun j hj => hsuff j (by omega)

/-! ### The entry points -/

section Entry

variable {action : Run σ ℝ (Step ℝ n)}

/-- An action with the results and the failures of a search settles as the search does. -/
theorem Settles.imp {action' : Run σ ℝ (Step ℝ n)} (h : ray.Settles F G k action)
    (hquiet : action'.Records NotBisection)
    (hstep : ∀ {step}, action.Computes step → action'.Computes step)
    (hfailure : ∀ {e}, action.Raises e → action'.Raises e) : ray.Settles F G k action' where
  bisection := hquiet
  concave hk := hfailure (h.concave hk)
  full hk hshort hlong := (h.full hk hshort hlong).imp fun _ => hstep
  halved hk hlong := by
    obtain ⟨m, hle, hlt, hfound, hcap⟩ := h.halved hk hlong
    exact ⟨m, hle, hlt, fun hm => (hfound hm).imp fun _ => hstep, fun hm => hfailure (hcap hm)⟩
  doubled hk hshort := by
    obtain ⟨m, hle, hlt, hfound, hcap⟩ := h.doubled hk hshort
    exact ⟨m, hle, hlt, fun hm => (hfound hm).imp fun _ => hstep, fun hm => hfailure (hcap hm)⟩

/-- What precedes the first trial does not change how a search settles. -/
theorem Settles.after {α : Type} {first : Run σ ℝ α} {a : α} {next : α → Run σ ℝ (Step ℝ n)}
    (h : ray.Settles F G k (next a)) (hfirst : first.Computes a)
    (hquiet : first.Records NotBisection) : ray.Settles F G k (first >>= next) := by
  refine h.imp (hquiet.bind fun b hb => ?_) hfirst.bind hfirst.bind_raises
  rw [hfirst.eq_of_yields hb]
  exact h.bisection

theorem Settles.reported (h : ray.Settles F G k action) {report : Step ℝ n → Event ℝ}
    (hquiet : ∀ step, NotBisection (report step)) :
    ray.Settles F G k (action >>= fun step => Run.record (report step) >>= fun _ => pure step) := by
  refine h.imp (h.bisection.bind fun step _ => ?_) (fun hstep => ?_) Run.Raises.bind
  · exact (Run.records_record (hquiet step)).bind fun _ _ => Run.records_pure _ _
  · exact hstep.bind ((Run.computes_record _).bind (Run.computes_pure _))

end Entry

end Ray

section Entry

variable {f : Objective σ ℝ n} {x d gradient : Vec ℝ n} {value k : ℝ} {params : SearchParams ℝ}
  {tally : Tally}

/-- An entry point settles as its search along the ray. -/
theorem settles_run (hdescent : gradient.dot d < 0) (hvalid : params.validateWolfePowell = .ok ())
    (h : Ray.Settles ⟨f, x, d, value, gradient.dot d, params⟩ F G k
      (Ray.search ⟨f, x, d, value, gradient.dot d, params⟩ tally)) :
    Ray.Settles ⟨f, x, d, value, gradient.dot d, params⟩ F G k
      (run f x value gradient d params tally) := by
  -- the reports of the entry point are not those of a bisection
  have hstart : ∀ level fields, NotBisection ⟨level, "start Wolfe-Powell search", fields⟩ := by
    intro level fields
    show "start Wolfe-Powell search" ≠ "Wolfe-Powell bisection"
    decide
  have hend : ∀ level fields, NotBisection ⟨level, "Wolfe-Powell search terminated", fields⟩ := by
    intro level fields
    show "Wolfe-Powell search terminated" ≠ "Wolfe-Powell bisection"
    decide
  unfold run
  refine Ray.Settles.after ?_ (Run.computes_liftM (slope_eq_dot gradient d)) (Run.records_liftM _ _)
  dsimp only
  -- the checks pass, and each is followed by the rest of the search
  rw [if_neg (not_le.mpr hdescent)]
  refine Ray.Settles.after ?_ (Run.computes_liftM hvalid) (Run.records_liftM _ _)
  refine Ray.Settles.after ?_ (Run.computes_record _) (Run.records_record (hstart _ _))
  exact h.reported fun _ => hend _ _

end Entry

/-- The ray of a search on a quadratic function from `x` along `d`. -/
noncomputable def rayOf (q : Quadratic ℝ n) (x d : Vec ℝ n) (params : SearchParams ℝ) : Ray σ ℝ n :=
  ⟨q.objective n, x, d, q.value x, (q.gradient x).dot d, params⟩

theorem bends_rayOf {q : Quadratic ℝ n} (hq : q.matrix.IsSymm) (x d : Vec ℝ n)
    (params : SearchParams ℝ) :
    (rayOf q x d params : Ray σ ℝ n).Bends q.value q.gradient (d.dot (q.matrix * d)) where
  value t := q.value_add_smul hq x d t
  slope t := by
    show (q.gradient (x + t • d)).dot d = (q.gradient x).dot d + t * d.dot (q.matrix * d)
    have himage : d.dot (q.matrix * d) = inner ℝ (q.matrix.toLin d) d :=
      real_inner_comm (q.matrix.toLin d) d
    rw [himage, ← Vec.inner_eq_dot, ← Vec.inner_eq_dot, q.gradient_eq, q.gradient_eq, map_add,
      map_smul, inner_add_left, inner_add_left, inner_add_left, real_inner_smul_left]
    ring

/-- **Parabolas**: with valid parameters and along a direction of descent, a search on a quadratic
function settles by the slope at the start, the curvature along the direction and the cap. It never
bisects a bracket. Where the curvature is not positive it fails at the cap of doubling. Otherwise
the step is one if this satisfies both conditions; else it is the largest power of two with a
sufficient decrease, and it is found exactly if the cap admits as many halvings, or as many
doublings and one that fails. This holds of both entry points. -/
theorem search_on_parabola {q : Quadratic ℝ n} (hq : q.matrix.IsSymm) {x d : Vec ℝ n}
    (hdescent : (q.gradient x).dot d < 0) {params : SearchParams ℝ}
    (hvalid : params.validateWolfePowell = .ok ()) :
    (rayOf q x d params : Ray σ ℝ n).Settles q.value q.gradient (d.dot (q.matrix * d))
      (search (q.objective n) x d params) ∧
    (rayOf q x d params : Ray σ ℝ n).Settles q.value q.gradient (d.dot (q.matrix * d))
      (searchFrom (q.objective n) x (q.value x) (q.gradient x) d params) := by
  have hvalue : ∀ y : Vec ℝ n, ((q.objective n : Objective σ ℝ n).value y).Records NotBisection :=
    fun _ => (Run.records_liftM _ _).bind fun _ _ => Run.records_pure _ _
  have hgradient : ∀ y : Vec ℝ n,
      ((q.objective n : Objective σ ℝ n).gradient y).Records NotBisection :=
    fun _ => (Run.records_liftM _ _).bind fun _ _ => Run.records_liftM _ _
  have hsettles : ∀ tally, (rayOf q x d params : Ray σ ℝ n).Settles q.value q.gradient
      (d.dot (q.matrix * d)) (run (q.objective n) x (q.value x) (q.gradient x) d params tally) :=
    fun tally => settles_run hdescent hvalid
      ((bends_rayOf hq x d params).settles q.evaluates hvalue hgradient hdescent hvalid tally)
  -- the entry points differ in what they do before the search along the ray
  constructor
  · refine Ray.Settles.after ?_ (Run.computes_liftM d.ofLength_self) (Run.records_liftM _ _)
    refine Ray.Settles.after ?_ (q.evaluates.value x) (hvalue x)
    refine Ray.Settles.after ?_ (q.evaluates.gradient x) (hgradient x)
    exact hsettles ⟨1, 1⟩
  · refine Ray.Settles.after ?_ (Run.computes_liftM d.ofLength_self) (Run.records_liftM _ _)
    refine Ray.Settles.after ?_ (Run.computes_liftM (q.gradient x).ofLength_self)
      (Run.records_liftM _ _)
    exact hsettles .none

/-- From one along `-4` half a square falls up to the step one half, where the decrease vanishes; so
the search halves twice, and ends at zero. -/
theorem search_on_parabola_quarter :
    ∃ tally, (search ((Quadratic.simple 1).objective 1 : Objective Unit ℝ 1) #v[1]
      (#v[-4] : Vec ℝ 1) .wolfePowell).Computes ⟨1 / 4, #v[0], 0, #v[0], tally⟩ := by
  have hslope : ((Quadratic.simple 1).gradient #v[1]).dot (#v[-4] : Vec ℝ 1) = -4 := by
    rw [Quadratic.simple_gradient, Vec.dot_singleton, one_mul]
  have hcurvature : ∀ v : Vec ℝ 1, v.dot ((Quadratic.simple 1).matrix * v) = v.dot v :=
    fun v => congrArg v.dot (Quadratic.simple_matrix_mul v)
  have hvalid : (SearchParams.wolfePowell : SearchParams ℝ).validateWolfePowell = .ok () :=
    validateWolfePowell_eq_ok (by norm_num [SearchParams.wolfePowell])
      (by norm_num [SearchParams.wolfePowell]) (by norm_num [SearchParams.wolfePowell])
      (by norm_num [SearchParams.wolfePowell]) (by decide)
  have hsettles := (search_on_parabola (σ := Unit) Quadratic.simple_isSymm (d := #v[-4])
    (by rw [hslope]; norm_num) hvalid).1
  have hreach : (rayOf (Quadratic.simple 1) #v[1] #v[-4] .wolfePowell : Ray Unit ℝ 1).reach
      (rayOf (Quadratic.simple 1) #v[1] #v[-4] .wolfePowell : Ray Unit ℝ 1).params.sigma 16 =
      (1 - 1e-3) * |-4| / 16 := by
    unfold Ray.reach rayOf
    dsimp only
    rw [hslope]
    rfl
  rw [hcurvature, Vec.dot_singleton, show (-4 : ℝ) * -4 = 16 by norm_num] at hsettles
  obtain ⟨m, hle, hlt, hfound, -⟩ := hsettles.halved (by norm_num) (by rw [hreach]; norm_num)
  rw [hreach] at hle hlt
  -- the longest step is just below one half
  obtain rfl : m = 2 := by
    refine le_antisymm (not_lt.mp fun hm => ?_) (not_lt.mp fun hm => ?_)
    · have hpow : (2 : ℝ) ^ 3 ≤ 2 ^ m := pow_le_pow_right₀ one_le_two hm
      rw [div_mul_eq_mul_div, lt_div_iff₀ (by positivity)] at hlt
      norm_num at hlt hpow
      linarith
    · interval_cases m <;> norm_num at hle
  obtain ⟨tally, hstep⟩ := hfound (by decide)
  refine ⟨tally, ?_⟩
  have hpoint : (#v[1] : Vec ℝ 1) + ((1 : ℝ) / 2 ^ 2) • (#v[-4] : Vec ℝ 1) = #v[0] := by
    rw [Vec.singleton_smul, Vec.singleton_add]
    norm_num
  have hend : (rayOf (Quadratic.simple 1) #v[1] #v[-4] .wolfePowell : Ray Unit ℝ 1).stepAt
      (Quadratic.simple 1).value (Quadratic.simple 1).gradient (1 / 2 ^ 2) tally =
      ⟨1 / 4, #v[0], 0, #v[0], tally⟩ := by
    unfold Ray.stepAt Ray.pointAt rayOf
    dsimp only
    rw [hpoint, Quadratic.simple_gradient, Quadratic.simple_value, Vec.dot_singleton]
    norm_num
  rwa [hend] at hstep

end WolfePowell

end Downhill
