/-
  Drawing in mode 13h (kernel/vga.cc).

  1. **Model** — coordinates are 32-bit `int`s, the offset of a pixel is cut to 16 bits, and a colour to
     the byte that is stored.  A cell is read at its index in the array; a read outside of the array has no
     result.  `plots` is a log of the pixels that were plotted, with their offsets.
  2. **Pixels** — those of the screen lie at different offsets, all below 64000.
  3. **Drawing** — `Drawn s s' R f`: the pixels of `R` show `f`, nothing else is changed, and all that was
     plotted has its own offset.  It holds of a pixel, and is passed on by the five loops.
  4. **The result** — `drawAnimation_eq`.
-/
import BadApple.Lib.Painting
import BadApple.Lib.Runs
import BadApple.Machine
import Mathlib.Tactic.Ring

namespace BadApple.Vga

open Function (update)
open Machine Painting

/-! ## Model -/

/-- A number cut to an `int`. -/
def i32 (x : Int) : Int := signed (unsigned x)

/-- The bytes at `VGA_ADDRESS`, and what was plotted. -/
structure Screen where
  vga : Nat → UInt8
  plots : List (Int × Int × Nat)

/-- `vga_plot_pixel`. -/
def plotPixel (x y : Int) (color : UInt16) (s : Screen) : Screen :=
  let offset := (i32 (x + i32 (320 * y)) % 65536).toNat
  { vga := update s.vga offset color.toUInt8, plots := s.plots ++ [(x, y, offset)] }

/-- `draw_rectangle`. -/
def drawRectangle (x y width height : Int) (color : UInt16) (s : Screen) : Screen :=
  (List.range width.toNat).foldl (fun s (i : Nat) =>
    (List.range height.toNat).foldl (fun s (j : Nat) => plotPixel (i32 (x + i)) (i32 (y + j)) color s) s) s

/-- `vga_clear_screen`. -/
def clearScreen (s : Screen) : Screen :=
  (List.range 320).foldl (fun s (i : Nat) => (List.range 200).foldl (fun s (j : Nat) => plotPixel i j 0 s) s) s

/-- The cell at an index of the array. -/
def cell (image : Array UInt16) (i : Int) : Option UInt16 := if 0 ≤ i then image[i.toNat]? else none

/-- `draw_image`, the image being the cells from `first` on. -/
def drawImage (image : Array UInt16) (first x y width height scale : Int) (s : Screen) : Option Screen :=
  (List.range height.toNat).foldlM (fun s (curHeight : Nat) =>
    (List.range width.toNat).foldlM (fun s (curWidth : Nat) => do
      let color ← cell image (first + i32 (i32 (width * curHeight) + curWidth))
      return drawRectangle (i32 (x + i32 (curWidth * scale))) (i32 (y + i32 (curHeight * scale))) scale scale color s)
      s) s

/-- `draw_animation`, without the pause after each frame. -/
def drawAnimation (image : Array UInt16) (x y width height scale numFrames : Int) (s : Screen) : Option Screen :=
  (List.range numFrames.toNat).foldlM (fun s (curFrame : Nat) =>
    drawImage image (i32 (i32 (curFrame * width) * height)) x y width height scale (clearScreen s)) s

/-! ## Pixels -/

/-- A pixel of the screen. -/
structure Pixel where
  x : Fin 320
  y : Fin 200

/-- Its place in the frame buffer. -/
def Pixel.offset (p : Pixel) : Nat := p.x.val + 320 * p.y.val

theorem Pixel.offset_lt (p : Pixel) : p.offset < 64000 := by
  have hx := p.x.isLt
  have hy := p.y.isLt
  unfold Pixel.offset
  omega

theorem Pixel.offset_injective : Function.Injective Pixel.offset := by
  rintro ⟨x, y⟩ ⟨x', y'⟩ h
  have hx := x.isLt
  have hx' := x'.isLt
  simp only [Pixel.offset] at h
  obtain rfl : x = x' := Fin.ext (by omega)
  obtain rfl : y = y' := Fin.ext (by omega)
  rfl

theorem Pixel.eq_iff {p q : Pixel} : p = q ↔ p.x.val = q.x.val ∧ p.y.val = q.y.val := by
  constructor
  · rintro rfl
    exact ⟨rfl, rfl⟩
  · rintro ⟨hx, hy⟩
    cases p
    cases q
    exact (Pixel.mk.injEq ..).mpr ⟨Fin.ext hx, Fin.ext hy⟩

/-- A plot of a pixel of the screen at its own offset. -/
def Exact (plot : Int × Int × Nat) : Prop :=
  ∃ p : Pixel, plot = ((p.x.val : Int), (p.y.val : Int), p.offset)

/-- The pixels of the rectangle of `w` by `h` at `(x, y)`. -/
def rectangle (x y w h : Nat) (p : Pixel) : Prop :=
  x ≤ p.x.val ∧ p.x.val < x + w ∧ y ≤ p.y.val ∧ p.y.val < y + h

variable {s s' s'' : Screen} {R R' : Pixel → Prop} {f : Pixel → UInt8} {image : Array UInt16}
variable {x y w h scale n first : Nat}

theorem i32_of_lt {x : Int} (h : 0 ≤ x) (h' : x < 2147483648) : i32 x = x := by
  unfold i32 signed unsigned
  split <;> omega

/-- A product of which one factor was cut is cut once. -/
theorem i32_mul (a b : Int) : i32 (i32 a * b) = i32 (a * b) := by
  have hsame : i32 a % 4294967296 = a % 4294967296 := by
    unfold i32 signed unsigned
    split <;> omega
  unfold i32 at *
  unfold unsigned at *
  rw [Int.mul_emod, hsame, ← Int.mul_emod]

/-! ## Drawing -/

/-- The pixels of `R` show `f`. -/
structure Drawn (s s' : Screen) (R : Pixel → Prop) (f : Pixel → UInt8) : Prop where
  painted : Painted Pixel.offset s.vga s'.vga R f
  plots : ∃ new, s'.plots = s.plots ++ new ∧ ∀ plot ∈ new, Exact plot

theorem Drawn.refl (s : Screen) (f : Pixel → UInt8) : Drawn s s (fun _ => False) f :=
  ⟨Painted.refl _ _ f, [], (List.append_nil _).symm, fun _ h => absurd h List.not_mem_nil⟩

theorem Drawn.trans (hs : Drawn s s' R f) (hs' : Drawn s' s'' R' f) : Drawn s s'' (fun p => R p ∨ R' p) f := by
  refine ⟨hs.painted.trans Pixel.offset_injective hs'.painted, ?_⟩
  obtain ⟨new, heq, hnew⟩ := hs.plots
  obtain ⟨new', heq', hnew'⟩ := hs'.plots
  refine ⟨new ++ new', by rw [heq', heq, List.append_assoc], ?_⟩
  intro plot hplot
  rcases List.mem_append.1 hplot with hmem | hmem
  · exact hnew plot hmem
  · exact hnew' plot hmem

theorem Drawn.congr (hs : Drawn s s' R f) (hR : ∀ p, R p ↔ R' p) : Drawn s s' R' f := by
  have heq : R = R' := funext fun p => propext (hR p)
  exact heq ▸ hs

/-- **A loop draws what its rounds draw.** -/
theorem drawn_foldlM {α : Type} {step : Screen → α → Option Screen} {as : List α} {V : α → Pixel → Prop}
    (hstep : ∀ a ∈ as, ∀ s, ∃ s', step s a = some s' ∧ Drawn s s' (V a) f) (s : Screen) :
    ∃ s', as.foldlM step s = some s' ∧ Drawn s s' (fun p => ∃ a ∈ as, V a p) f := by
  have hrounds : ∀ a ∈ as, ∀ s, ∀ _ : Unit, True →
      ∃ (s' : Screen) (_ : Unit), step s a = some s' ∧ Drawn s s' (V a) f := by
    intro a ha s g _
    obtain ⟨s', hs', hd⟩ := hstep a ha s
    exact ⟨s', g, hs', hd⟩
  obtain ⟨s', _, hs', hd⟩ := Runs.foldlM_effect (V := V) (I := fun _ (_ : Unit) => True)
    (R := fun V s _ s' _ => Drawn s s' V f) (fun s _ _ => Drawn.refl s f)
    (fun _ _ _ _ _ _ _ _ h h' => h.trans h') (fun _ _ _ _ _ _ => trivial) hrounds (s := s) (g := ()) trivial
  exact ⟨s', hs', hd⟩

theorem drawn_foldl {α : Type} {step : Screen → α → Screen} {as : List α} {V : α → Pixel → Prop}
    (hstep : ∀ a ∈ as, ∀ s, Drawn s (step s a) (V a) f) (s : Screen) :
    Drawn s (as.foldl step s) (fun p => ∃ a ∈ as, V a p) f := by
  have hrounds : ∀ a ∈ as, ∀ s, ∃ s', some (step s a) = some s' ∧ Drawn s s' (V a) f :=
    fun a ha s => ⟨step s a, rfl, hstep a ha s⟩
  obtain ⟨s', hs', hd⟩ := drawn_foldlM hrounds s
  have heq := List.foldlM_pure (m := Option) (f := step) (b := s) (l := as)
  rw [show as.foldlM (fun s a => some (step s a)) s = some (as.foldl step s) from heq] at hs'
  obtain rfl := Option.some.inj hs'
  exact hd

/-- **One pixel** of the screen. -/
theorem plotPixel_drawn (p : Pixel) (color : UInt16) (hf : f p = color.toUInt8) (s : Screen) :
    Drawn s (plotPixel p.x.val p.y.val color s) (fun q => q = p) f := by
  have hx := p.x.isLt
  have hy := p.y.isLt
  have hoffset : (i32 ((p.x.val : Int) + i32 (320 * (p.y.val : Int))) % 65536).toNat = p.offset := by
    rw [i32_of_lt (x := 320 * (p.y.val : Int)) (by omega) (by omega), i32_of_lt (by omega) (by omega)]
    unfold Pixel.offset
    omega
  unfold plotPixel
  simp only [hoffset]
  refine ⟨?_, [_], rfl, ?_⟩
  · rw [← hf]
    exact Painted.update _ _ p f
  · intro plot hplot
    obtain rfl := List.mem_singleton.1 hplot
    exact ⟨p, rfl⟩

/-- A rectangle inside of the screen, in a colour that `f` has all over it. -/
theorem drawRectangle_drawn (hx : x + w ≤ 320) (hy : y + h ≤ 200) (color : UInt16)
    (hf : ∀ p, rectangle x y w h p → f p = color.toUInt8) (s : Screen) :
    Drawn s (drawRectangle x y w h color s) (rectangle x y w h) f := by
  unfold drawRectangle
  rw [Int.toNat_natCast, Int.toNat_natCast]
  have hpixel : ∀ i ∈ List.range w, ∀ j ∈ List.range h, ∀ s,
      Drawn s (plotPixel (i32 ((x : Int) + i)) (i32 ((y : Int) + j)) color s)
        (fun p => p.x.val = x + i ∧ p.y.val = y + j) f := by
    intro i hi j hj s
    have hi := List.mem_range.1 hi
    have hj := List.mem_range.1 hj
    have hdrawn := plotPixel_drawn (f := f) ⟨⟨x + i, by omega⟩, ⟨y + j, by omega⟩⟩ color
      (hf _ ⟨by simp only; omega, by simp only; omega, by simp only; omega, by simp only; omega⟩) s
    rw [i32_of_lt (by omega) (by omega), i32_of_lt (by omega) (by omega)]
    exact hdrawn.congr fun p => Pixel.eq_iff
  have hcolumn := drawn_foldl (f := f) (fun i hi s => drawn_foldl (hpixel i hi) s) s
  refine hcolumn.congr fun p => ?_
  unfold rectangle
  constructor
  · rintro ⟨i, hi, j, hj, h1, h2⟩
    have hi := List.mem_range.1 hi
    have hj := List.mem_range.1 hj
    omega
  · rintro ⟨h1, h2, h3, h4⟩
    exact ⟨p.x.val - x, List.mem_range.2 (by omega), p.y.val - y, List.mem_range.2 (by omega), by omega, by omega⟩

/-- Black lines and columns. -/
theorem clear_drawn (hw : w ≤ 320) (hh : h ≤ 200) (s : Screen) :
    Drawn s ((List.range w).foldl (fun s (i : Nat) => (List.range h).foldl (fun s (j : Nat) => plotPixel i j 0 s) s) s)
      (rectangle 0 0 w h) fun _ => 0 := by
  have hpixel : ∀ i ∈ List.range w, ∀ j ∈ List.range h, ∀ s,
      Drawn s (plotPixel i j 0 s) (fun p => p.x.val = i ∧ p.y.val = j) fun _ => 0 := by
    intro i hi j hj s
    have hi := List.mem_range.1 hi
    have hj := List.mem_range.1 hj
    refine (plotPixel_drawn (f := fun _ => 0) ⟨⟨i, by omega⟩, ⟨j, by omega⟩⟩ 0 rfl s).congr fun p => ?_
    exact Pixel.eq_iff
  have hcolumn := drawn_foldl (f := fun _ => 0) (fun i hi s => drawn_foldl (hpixel i hi) s) s
  refine hcolumn.congr fun p => ?_
  unfold rectangle
  constructor
  · rintro ⟨i, hi, j, hj, h1, h2⟩
    have hi := List.mem_range.1 hi
    have hj := List.mem_range.1 hj
    omega
  · rintro ⟨_, h2, _, h4⟩
    exact ⟨p.x.val, List.mem_range.2 (by omega), p.y.val, List.mem_range.2 (by omega), rfl, rfl⟩

/-- A clear screen is black. -/
theorem clearScreen_drawn (s : Screen) : Drawn s (clearScreen s) (fun _ => True) fun _ => 0 := by
  refine Drawn.congr (clear_drawn (Nat.le_refl 320) (Nat.le_refl 200) s) fun p => ?_
  have hx := p.x.isLt
  have hy := p.y.isLt
  exact ⟨fun _ => trivial, fun _ => ⟨by omega, by omega, by omega, by omega⟩⟩

/-- What the image of `w` cells to a line shows, the cells beginning at `first`. -/
def picture (image : Array UInt16) (first x y w scale : Nat) (p : Pixel) : UInt8 :=
  (image.getD (first + w * ((p.y.val - y) / scale) + (p.x.val - x) / scale) 0).toUInt8

/-- The square of one cell: its pixels are those that the divisions lead to. -/
theorem rectangle_cell {i j : Nat} {p : Pixel} (hscale : 1 ≤ scale) :
    rectangle (x + j * scale) (y + i * scale) scale scale p ↔
      (x ≤ p.x.val ∧ (p.x.val - x) / scale = j) ∧ y ≤ p.y.val ∧ (p.y.val - y) / scale = i := by
  have hdiv : ∀ a b k : Nat, (a + k * scale ≤ b ∧ b < a + k * scale + scale) ↔ a ≤ b ∧ (b - a) / scale = k := by
    intro a b k
    constructor
    · rintro ⟨h1, h2⟩
      refine ⟨by omega, (Nat.div_eq_iff (by omega)).2 ⟨by omega, by omega⟩⟩
    · rintro ⟨h1, h2⟩
      have h3 := (Nat.div_eq_iff (by omega)).1 h2
      omega
  unfold rectangle
  rw [← hdiv, ← hdiv, and_assoc]

/-- The squares of all cells. -/
theorem rectangle_cells {p : Pixel} (hscale : 1 ≤ scale) :
    (∃ i ∈ List.range h, ∃ j ∈ List.range w, rectangle (x + j * scale) (y + i * scale) scale scale p) ↔
      rectangle x y (w * scale) (h * scale) p := by
  have hlt : ∀ a b n : Nat, a ≤ b → ((b - a) / scale < n ↔ b < a + n * scale) := by
    intro a b n hle
    rw [Nat.div_lt_iff_lt_mul (by omega)]
    omega
  constructor
  · rintro ⟨i, hi, j, hj, hin⟩
    obtain ⟨⟨hx, rfl⟩, hy, rfl⟩ := (rectangle_cell hscale).1 hin
    exact ⟨hx, (hlt _ _ _ hx).1 (List.mem_range.1 hj), hy, (hlt _ _ _ hy).1 (List.mem_range.1 hi)⟩
  · rintro ⟨hx, hx', hy, hy'⟩
    exact ⟨_, List.mem_range.2 ((hlt _ _ _ hy).2 hy'), _, List.mem_range.2 ((hlt _ _ _ hx).2 hx'),
      (rectangle_cell hscale).2 ⟨⟨hx, rfl⟩, hy, rfl⟩⟩

theorem cell_eq {i : Nat} (hi : i < image.size) : cell image i = some (image.getD i 0) := by
  unfold cell
  rw [if_pos (by omega), Int.toNat_natCast, Array.getElem?_eq_getElem hi, Array.getD_eq_getD_getElem?,
    Array.getElem?_eq_getElem hi, Option.getD_some]

/-- An image inside of the screen and of the array. -/
theorem drawImage_drawn (hscale : 1 ≤ scale) (hx : x + w * scale ≤ 320) (hy : y + h * scale ≤ 200)
    (hcells : first + w * h ≤ image.size) (hsize : image.size ≤ 2147483648) (s : Screen) :
    ∃ s', drawImage image first x y w h scale s = some s' ∧
      Drawn s s' (rectangle x y (w * scale) (h * scale)) (picture image first x y w scale) := by
  unfold drawImage
  rw [Int.toNat_natCast, Int.toNat_natCast]
  have hsquare : ∀ i ∈ List.range h, ∀ j ∈ List.range w, ∀ s, ∃ s',
      (do let color ← cell image ((first : Int) + i32 (i32 ((w : Int) * (i : Nat)) + (j : Nat)))
          return drawRectangle (i32 ((x : Int) + i32 ((j : Nat) * (scale : Int))))
            (i32 ((y : Int) + i32 ((i : Nat) * (scale : Int)))) scale scale color s : Option Screen) = some s' ∧
      Drawn s s' (rectangle (x + j * scale) (y + i * scale) scale scale) (picture image first x y w scale) := by
    intro i hi j hj s
    have hi := List.mem_range.1 hi
    have hj := List.mem_range.1 hj
    -- the cell lies in the array, and its square on the screen
    have hcell : w * i + w ≤ w * h := by
      rw [← Nat.mul_succ]
      exact Nat.mul_le_mul_left w hi
    have hcolumn : j * scale + scale ≤ w * scale := by
      rw [← Nat.succ_mul]
      exact Nat.mul_le_mul_right scale hj
    have hline : i * scale + scale ≤ h * scale := by
      rw [← Nat.succ_mul]
      exact Nat.mul_le_mul_right scale hi
    have hindex : (first : Int) + i32 (i32 ((w : Int) * (i : Nat)) + (j : Nat)) =
        ((first + w * i + j : Nat) : Int) := by
      rw [← Int.natCast_mul, i32_of_lt (x := ((w * i : Nat) : Int)) (by omega) (by omega),
        i32_of_lt (by omega) (by omega)]
      omega
    have hleft : i32 ((x : Int) + i32 ((j : Nat) * (scale : Int))) = ((x + j * scale : Nat) : Int) := by
      rw [← Int.natCast_mul, i32_of_lt (x := ((j * scale : Nat) : Int)) (by omega) (by omega),
        i32_of_lt (by omega) (by omega)]
      omega
    have htop : i32 ((y : Int) + i32 ((i : Nat) * (scale : Int))) = ((y + i * scale : Nat) : Int) := by
      rw [← Int.natCast_mul, i32_of_lt (x := ((i * scale : Nat) : Int)) (by omega) (by omega),
        i32_of_lt (by omega) (by omega)]
      omega
    rw [hindex, hleft, htop, cell_eq (by omega)]
    refine ⟨_, rfl, drawRectangle_drawn (by omega) (by omega) _ ?_ s⟩
    intro p hp
    obtain ⟨⟨_, hcol⟩, _, hrow⟩ := (rectangle_cell hscale).1 hp
    unfold picture
    rw [hcol, hrow]
  obtain ⟨s', hs', hdrawn⟩ := drawn_foldlM (fun i hi s => drawn_foldlM (hsquare i hi) s) s
  exact ⟨s', hs', hdrawn.congr fun p => rectangle_cells hscale⟩

/-! ## The animation -/

/-- What is on the screen after a frame: the picture in its rectangle, and black around it. -/
def frame (image : Array UInt16) (first x y w h scale : Nat) (p : Pixel) : UInt8 :=
  if x ≤ p.x.val ∧ p.x.val < x + w * scale ∧ y ≤ p.y.val ∧ p.y.val < y + h * scale then
    picture image first x y w scale p
  else 0

/-- **One frame** is all that is on the screen after it. -/
theorem frame_drawn (first : Nat) (hscale : 1 ≤ scale) (hx : x + w * scale ≤ 320) (hy : y + h * scale ≤ 200)
    (hcells : first + w * h ≤ image.size) (hsize : image.size ≤ 2147483648) (s : Screen) :
    ∃ s', drawImage image first x y w h scale (clearScreen s) = some s' ∧
      Drawn s s' (fun _ => True) (frame image first x y w h scale) := by
  have hclear := clearScreen_drawn s
  obtain ⟨s', hs', hdrawn⟩ := drawImage_drawn hscale hx hy hcells hsize (clearScreen s)
  refine ⟨s', hs', ⟨?_, ?_⟩, ?_⟩
  · intro p _
    unfold frame
    split
    · rename_i hin
      exact hdrawn.painted.inside p hin
    · rename_i hout
      exact hclear.painted.over Pixel.offset_injective hdrawn.painted trivial hout
  · intro k hk
    rw [hdrawn.painted.outside k fun p _ => hk p trivial, hclear.painted.outside k hk]
  · obtain ⟨new, heq, hnew⟩ := hclear.plots
    obtain ⟨new', heq', hnew'⟩ := hdrawn.plots
    refine ⟨new ++ new', by rw [heq', heq, List.append_assoc], ?_⟩
    intro plot hplot
    rcases List.mem_append.1 hplot with hmem | hmem
    · exact hnew plot hmem
    · exact hnew' plot hmem

/-- All of the screen is drawn anew. -/
theorem Drawn.anew {g : Pixel → UInt8} (hs : Drawn s s' R g) (hs' : Drawn s' s'' (fun _ => True) f) :
    Drawn s s'' (fun _ => True) f := by
  refine ⟨⟨hs'.painted.inside, ?_⟩, ?_⟩
  · intro k hk
    rw [hs'.painted.outside k hk, hs.painted.outside k fun p _ => hk p trivial]
  · obtain ⟨new, heq, hnew⟩ := hs.plots
    obtain ⟨new', heq', hnew'⟩ := hs'.plots
    refine ⟨new ++ new', by rw [heq', heq, List.append_assoc], ?_⟩
    intro plot hplot
    rcases List.mem_append.1 hplot with hmem | hmem
    · exact hnew plot hmem
    · exact hnew' plot hmem

/-- The first cell of a frame. -/
theorem frame_first (hlt : n * (w * h) < 2147483648) :
    i32 (i32 ((n : Int) * w) * h) = ((n * (w * h) : Nat) : Int) := by
  rw [i32_mul, ← Int.natCast_mul, ← Int.natCast_mul, Nat.mul_assoc]
  exact i32_of_lt (by omega) (by omega)

/-- **The frames one after the other**: the last one stays. -/
theorem frames_drawn (hscale : 1 ≤ scale) (hx : x + w * scale ≤ 320) (hy : y + h * scale ≤ 200)
    (hsize : image.size ≤ 2147483648) (s : Screen) :
    ∀ n, n * (w * h) ≤ image.size →
      ∃ s', drawAnimation image x y w h scale n s = some s' ∧
        ∃ R, Drawn s s' R (frame image ((n - 1) * (w * h)) x y w h scale) ∧ (1 ≤ n → ∀ p, R p) := by
  intro n
  induction n with
  | zero =>
    intro _
    exact ⟨s, rfl, _, Drawn.refl s _, fun h => absurd h (by omega)⟩
  | succ n ih =>
    intro hcells
    have hsucc : (n + 1) * (w * h) = n * (w * h) + w * h := Nat.succ_mul n (w * h)
    obtain ⟨s₁, hs₁, R, hdrawn₁, _⟩ := ih (by omega)
    obtain ⟨s₂, hs₂, hdrawn₂⟩ := frame_drawn (n * (w * h)) hscale hx hy (by omega) hsize s₁
    refine ⟨s₂, ?_, fun _ => True, hdrawn₁.anew hdrawn₂, fun _ _ => trivial⟩
    unfold drawAnimation at hs₁ ⊢
    rw [Int.toNat_natCast] at hs₁ ⊢
    rw [List.range_succ, List.foldlM_append, hs₁, Option.bind_eq_bind, Option.bind_some]
    rw [List.foldlM_cons, frame_first]
    · rw [hs₂]
      rfl
    · rcases Nat.eq_zero_or_pos (w * h) with hzero | hpos
      · rw [hzero, Nat.mul_zero]
        decide
      · omega

/-- **The animation**: all cells that are read lie in the array, the last frame is shown where it belongs,
    the rest of the screen is black, nothing else in the frame buffer is changed, and every pixel was plotted
    at its own offset. -/
theorem drawAnimation_eq (hn : 1 ≤ n) (hscale : 1 ≤ scale) (hx : x + w * scale ≤ 320)
    (hy : y + h * scale ≤ 200) (hcells : image.size = n * (w * h)) (hsize : image.size ≤ 2147483648) (s : Screen) :
    ∃ s', drawAnimation image x y w h scale n s = some s' ∧
      (∀ px py, px < 320 → py < 200 → s'.vga (px + 320 * py) =
        if x ≤ px ∧ px < x + w * scale ∧ y ≤ py ∧ py < y + h * scale then
          (image.getD ((n - 1) * (w * h) + w * ((py - y) / scale) + (px - x) / scale) 0).toUInt8
        else 0) ∧
      (∀ offset, 64000 ≤ offset → s'.vga offset = s.vga offset) ∧
      ∃ new, s'.plots = s.plots ++ new ∧ ∀ plot ∈ new, Exact plot := by
  obtain ⟨s', hs', R, hdrawn, hall⟩ := frames_drawn hscale hx hy hsize s n (by omega)
  refine ⟨s', hs', ?_, ?_, hdrawn.plots⟩
  · intro px py hpx hpy
    exact hdrawn.painted.inside ⟨⟨px, hpx⟩, ⟨py, hpy⟩⟩ (hall hn _)
  · intro offset hoffset
    refine hdrawn.painted.outside offset fun p _ heq => ?_
    have hlt := p.offset_lt
    omega

/-- What is there before anything is drawn. -/
def Screen.empty : Screen := ⟨fun _ => 0xff, []⟩

/-- Two frames of two cells each, at scale 3. -/
theorem drawAnimation_eq_two : ∃ s', drawAnimation #[1, 2, 3, 260] 5 7 2 1 3 2 Screen.empty = some s' ∧
    (∀ px py, px < 320 → py < 200 → s'.vga (px + 320 * py) =
      if 5 ≤ px ∧ px < 5 + 2 * 3 ∧ 7 ≤ py ∧ py < 7 + 1 * 3 then
        (#[1, 2, 3, 260].getD ((2 - 1) * (2 * 1) + 2 * ((py - 7) / 3) + (px - 5) / 3) (0 : UInt16)).toUInt8
      else 0) ∧
    (∀ offset, 64000 ≤ offset → s'.vga offset = Screen.empty.vga offset) ∧
    ∃ new, s'.plots = Screen.empty.plots ++ new ∧ ∀ plot ∈ new, Exact plot :=
  drawAnimation_eq (x := 5) (y := 7) (w := 2) (h := 1) (n := 2)
    (by decide) (by decide) (by decide) (by decide) rfl (by decide) Screen.empty

end BadApple.Vga
