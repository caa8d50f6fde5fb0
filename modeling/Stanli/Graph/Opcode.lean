import Mathlib.Tactic.Common

/-!
# Opcodes of the op graph

The opcode registry of `optable.hpp`: one constructor for each line of the opcode lists, in enum
order, the opt-in traits shared by the graph rewrites (`op_traits`), and the blocklist of effectful
opcodes (`is_effectful_op`).
-/

namespace Stanli

/-- The graph opcodes.  The groups follow the lists `optable.hpp` expands: plain opcodes, scalar
densities, integer-outcome densities, distribution functions, and scalar unary functions. -/
inductive Opcode
  | opNone
  -- STANLI_OPCODE_LIST
  | addN | bcastFma | matvec | poissonLogLpmf | bernoulliLogitLpmf | bernoulliLpmf | poissonLpmf
  | negBinomial2Lpmf | binomialLpmf | binomialLogitLpmf | bernoulliLogitGlmLpmf
  | poissonLogGlmLpmf | negBinomial2LogGlmLpmf | betaBinomialLpmf | logit | mean | sd | variance
  | repVec | index | setIndex | setIndexInplace | slice | setSlice | setSliceInplace
  | setSliceStrided | setSliceStridedInplace | sliceStrided | gather | concat2 | repMat | gpCov
  | diagMatrix | cholesky | multiNormalCholLpdf | multiNormalLpdf | multiNormalPrecLpdf | gemm
  | mdivideLeft | mdivideRight | mdivideLeftSpd | mdivideRightSpd | mdivideLeftTriLow
  | mdivideRightTriLow | logSoftmax | constrainCholCorr | lkjCorrCholLpdf | lkjCorrLpdf
  | wishartLpdf | invWishartLpdf | wishartCholLpdf | invWishartCholLpdf | multiGpLpdf
  | multiGpCholLpdf | multiStudentTLpdf | multiStudentTCholLpdf | multinomialLpmf
  | multinomialLogitLpmf | dirichletMultinomialLpmf | orderedProbitLpmf | orderedLogisticLpmf
  | wienerLpdf | wienerPackedLpdf | lkjCovLpdf | binomialLogitGlmLpmf | categoricalLogitGlmLpmf
  | orderedLogisticGlmLpmf | normalIdGlmLpdf | transpose | algebraSolver | quadrature | ode | rng
  | island | loop | reduceSum | regionMap | compare | intArith | repVecDynamic | indexDynamic
  | setIndexDynamic | matrixExpDynamic | eigenvaluesSym | eigenvectorsSym | logSumExp
  | logSumExpRows | sumRows | lse2 | logDiffExp | logMix | softmax | sumVec | add | sub | mul
  | div | pow | dot | groupDot | neg | expv | logv | invLogit | sqrt | square | log1m | tanhv
  | trigamma | cumsum | sortAsc | sortDesc | ordering | fma | atan2 | betaFn | fdim | fmax | fmin
  | fmod | gammaP | gammaQ | hypot | lbeta | lchoose | lmultiply | logFallingFactorial
  | logInvLogitDiff | logModifiedBessel1 | logRisingFactorial | owensT | choose | bessel1
  | bessel2 | modifiedBessel1 | modifiedBessel2 | binaryLogLoss | lmgamma | fallingFactorial
  | risingFactorial | ldexp | constrainLower | constrainUpper | constrainLu | constrainSimplex
  | constrainOrdered | constrainPosOrdered | constrainOffsetMult | constrainUnitVector
  | constrainSumToZero | constrainSumToZeroMat | constrainCorrMatrix | constrainCovMatrix
  | constrainCholCov | constrainStochasticColumn | constrainStochasticRow | checkStructured
  | checkMatchingDims | checkLower | checkUpper | categorical | allIntegerDensity | reject | print
  | dirichletLpdf | prodVec | extremaVec | dynamicSlice | matrixExp | quadFormSym | inverse
  | inverseSpd | logDeterminant | quadForm | addDiag | crossprod | multLowerTriSelfTranspose | dae
  | odeAdjoint | studentTQf | poissonBinomial | hypergeometric1F0 | normalGroupedLpdf
  | linearGaussianLpdf | familyGroupedLpdf | segmentSum | toInt | checkOffsetMultiplier
  | determinant | logDeterminantSpd | chol2inv | generalizedInverse | qrQ | qrR | qrThinQ
  | qrThinR | matrixPower | traceQuadForm | traceGenQuadForm | matrixExpMultiply
  | scaleMatrixExpMultiply | traceDot | norm1 | norm2 | distance | incBeta | invIncBeta
  | hypergeometric2F1 | hypergeometric3F2 | hypergeometricPfq | logMixVec | hmmMarginal
  | hmmHiddenStateProb | gaussianDlmObsLpdf | quantile | csrMatrixTimesVector | csrToDenseMatrix
  | checkLubFree
  -- STANLI_SCALAR_DENSITY_LIST
  | normalLpdf | cauchyLpdf | gammaLpdf | betaLpdf | lognormalLpdf | studentTLpdf | uniformLpdf
  | doubleExpLpdf | exponentialLpdf | invGammaLpdf | stdNormalLpdf | weibullLpdf | logisticLpdf
  | chiSquareLpdf | invChiSquareLpdf | scaledInvChiSquareLpdf | frechetLpdf | gumbelLpdf
  | loglogisticLpdf | paretoLpdf | skewNormalLpdf | expModNormalLpdf | paretoType2Lpdf
  | rayleighLpdf | vonMisesLpdf | betaProportionLpdf | skewDoubleExponentialLpdf
  -- STANLI_INT_DENSITY_LIST
  | negBinomial2LogLpmf | negBinomialLpmf | betaNegBinomialLpmf | yuleSimonLpmf
  -- STANLI_SCALAR_CDF_LIST
  | betaCdf | betaLccdf | betaLcdf | betaProportionLccdf | betaProportionLcdf | cauchyCdf
  | cauchyLccdf | cauchyLcdf | chiSquareCdf | chiSquareLccdf | chiSquareLcdf
  | doubleExponentialCdf | doubleExponentialLccdf | doubleExponentialLcdf | expModNormalCdf
  | expModNormalLccdf | expModNormalLcdf | exponentialCdf | exponentialLccdf | exponentialLcdf
  | frechetCdf | frechetLccdf | frechetLcdf | gammaCdf | gammaLccdf | gammaLcdf | gumbelCdf
  | gumbelLccdf | gumbelLcdf | invChiSquareCdf | invChiSquareLccdf | invChiSquareLcdf
  | invGammaCdf | invGammaLccdf | invGammaLcdf | logisticCdf | logisticLccdf | logisticLcdf
  | loglogisticCdf | lognormalCdf | lognormalLccdf | lognormalLcdf | normalCdf | normalLcdf
  | paretoCdf | paretoLccdf | paretoLcdf | paretoType2Cdf | paretoType2Lccdf | paretoType2Lcdf
  | rayleighCdf | rayleighLccdf | rayleighLcdf | scaledInvChiSquareCdf | scaledInvChiSquareLccdf
  | scaledInvChiSquareLcdf | skewNormalCdf | skewNormalLccdf | skewNormalLcdf | stdNormalCdf
  | skewDoubleExponentialCdf | skewDoubleExponentialLcdf | skewDoubleExponentialLccdf
  | stdNormalLcdf | studentTCdf | studentTLccdf | studentTLcdf | uniformCdf | uniformLccdf
  | uniformLcdf | weibullCdf | weibullLccdf | weibullLcdf | normalLccdf | stdNormalLccdf
  -- STANLI_INT_CDF_LIST, STANLI_TWO_INT_CDF_LIST, STANLI_TAIL_CDF_LIST, STANLI_TAIL_INT_CDF_LIST
  | bernoulliCdf | bernoulliLccdf | bernoulliLcdf | betaNegBinomialCdf | betaNegBinomialLccdf
  | betaNegBinomialLcdf | negBinomialCdf | negBinomialLccdf | negBinomialLcdf | negBinomial2Cdf
  | poissonCdf | poissonLccdf | poissonLcdf | yuleSimonCdf | yuleSimonLccdf | yuleSimonLcdf
  | betaBinomialCdf | betaBinomialLccdf | betaBinomialLcdf | binomialCdf | binomialLccdf
  | binomialLcdf | vonMisesCdf | vonMisesLccdf | vonMisesLcdf | negBinomial2Lccdf
  | negBinomial2Lcdf
  -- STANLI_SCALAR_UNARY_LIST
  | lgamma | digamma | log1p | expm1 | phi | invPhi | erf | erfc | inv | invSqrt | invSquare
  | log1mExp | log1pExp | logInvLogit | log1mInvLogit | invCloglog | sin | cos | tan | asin | acos
  | atan | sinh | cosh | asinh | acosh | atanh | cbrt | exp2 | log2 | log10 | phiApprox | invErfc
  | lambertW0 | lambertWm1 | stdNormalLogQf | tgamma | abs | floor | ceil | round | trunc | step
deriving DecidableEq, Repr

namespace Opcode

/-! ## Traits -/

/-- The facts `op_traits` may claim of an opcode (`namespace op_trait`). -/
inductive Trait
  | rerollDensity
  | rerollIdataDensity
  | rerollWidenable
  /-- The backward reads adjoints and scratch only, never input or output value buffers. -/
  | backwardValueFree
  | variantGrouped
  /-- An immutable payload with no slot ids; the op may be treated as reading all of each input. -/
  | wholeInputPayload
deriving DecidableEq, Repr

/-- `STANLI_SCALAR_DENSITY_LIST`. -/
def scalarDensities : List Opcode :=
  [.normalLpdf, .cauchyLpdf, .gammaLpdf, .betaLpdf, .lognormalLpdf, .studentTLpdf, .uniformLpdf,
  .doubleExpLpdf, .exponentialLpdf, .invGammaLpdf, .stdNormalLpdf, .weibullLpdf, .logisticLpdf,
  .chiSquareLpdf, .invChiSquareLpdf, .scaledInvChiSquareLpdf, .frechetLpdf, .gumbelLpdf,
  .loglogisticLpdf, .paretoLpdf, .skewNormalLpdf, .expModNormalLpdf, .paretoType2Lpdf,
  .rayleighLpdf, .vonMisesLpdf, .betaProportionLpdf, .skewDoubleExponentialLpdf]

/-- The integer-outcome densities whose scalar-lane immediates can be concatenated. -/
def idataDensities : List Opcode :=
  [.bernoulliLpmf, .bernoulliLogitLpmf, .poissonLpmf, .poissonLogLpmf, .negBinomial2Lpmf,
  .binomialLpmf, .binomialLogitLpmf, .betaBinomialLpmf, .negBinomial2LogLpmf, .negBinomialLpmf,
  .betaNegBinomialLpmf, .yuleSimonLpmf]

/-- `STANLI_SCALAR_UNARY_LIST`. -/
def scalarUnary : List Opcode :=
  [.lgamma, .digamma, .log1p, .expm1, .phi, .invPhi, .erf, .erfc, .inv, .invSqrt, .invSquare,
  .log1mExp, .log1pExp, .logInvLogit, .log1mInvLogit, .invCloglog, .sin, .cos, .tan, .asin, .acos,
  .atan, .sinh, .cosh, .asinh, .acosh, .atanh, .cbrt, .exp2, .log2, .log10, .phiApprox, .invErfc,
  .lambertW0, .lambertWm1, .stdNormalLogQf, .tgamma, .abs, .floor, .ceil, .round, .trunc, .step]

/-- `STANLI_SCALAR_BINARY_LIST`. -/
def scalarBinary : List Opcode :=
  [.atan2, .betaFn, .fdim, .fmax, .fmin, .fmod, .gammaP, .gammaQ, .hypot, .hypergeometric1F0,
  .lbeta, .lchoose, .lmultiply, .logFallingFactorial, .logInvLogitDiff, .logModifiedBessel1,
  .logRisingFactorial, .owensT]

/-- The shape-dispatched elementwise ops that can widen scalar lanes in place. -/
def elementwise : List Opcode :=
  [.sub, .mul, .div, .pow, .fma, .neg, .expv, .logv, .invLogit, .sqrt, .square, .log1m, .tanhv]

/-- The ops whose backward routes adjoints without rereading input or output values. -/
def routing : List Opcode :=
  [.index, .slice, .sliceStrided, .gather, .setIndex, .setIndexInplace, .setSlice,
  .setSliceInplace, .setSliceStrided, .setSliceStridedInplace, .logSumExp, .logSumExpRows,
  .sumRows, .segmentSum]

/-- `op_traits`: the traits of an opcode.  An opcode no case names has none. -/
def traits (oc : Opcode) : List Trait :=
  if oc ∈ scalarDensities then [.rerollDensity]
  else if oc ∈ idataDensities then [.rerollIdataDensity]
  else if oc ∈ [logMix, lse2, add] then [.rerollWidenable, .backwardValueFree]
  else if oc ∈ elementwise ∨ oc ∈ scalarUnary ∨ oc ∈ scalarBinary then [.rerollWidenable]
  else if oc ∈ routing then [.backwardValueFree]
  else if oc ∈ [prodVec, extremaVec] then [.variantGrouped]
  else if oc ∈ [checkLower, checkUpper, checkMatchingDims, checkLubFree, regionMap] then
    [.wholeInputPayload]
  else []

/-- `has_op_trait`. -/
def hasTrait (oc : Opcode) (t : Trait) : Bool :=
  decide (t ∈ oc.traits)

/-- `backward_ignores_values`: the opcode's backward never rereads a value buffer. -/
def backwardIgnoresValues (oc : Opcode) : Bool :=
  oc.hasTrait .backwardValueFree

/-- `is_effectful_op`: ops no rewrite may run a different number of times than the graph says. -/
def isEffectful (oc : Opcode) : Bool :=
  decide (oc ∈ [checkStructured, checkMatchingDims, checkLower, checkUpper, checkOffsetMultiplier,
    checkLubFree, categorical, allIntegerDensity, rng, print, reject, loop, reduceSum, regionMap])

end Opcode

end Stanli
