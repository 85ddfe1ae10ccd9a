/-!
The arithmetic of weights and loads. The class asks for operations and comparisons only and
states no law, so that it holds of rounded numbers, where sums depend on their order.
-/

namespace Reshard

class Weight (W : Type) extends Zero W, One W, Add W, Sub W, Mul W, Div W, NatCast W,
    LT W, LE W, BEq W where
  decidableLT : DecidableLT W
  decidableLE : DecidableLE W

namespace Weight

variable {W : Type} [Weight W]

instance : DecidableLT W := Weight.decidableLT

instance : DecidableLE W := Weight.decidableLE

/-- Adds from left to right, starting at zero. -/
def sum (ws : List W) : W := ws.foldl (· + ·) 0

end Weight

instance : Weight Float where
  zero := 0.0
  one := 1.0
  natCast := Float.ofNat
  decidableLT := inferInstance
  decidableLE := inferInstance

end Reshard
