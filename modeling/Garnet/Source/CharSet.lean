/-!
# Sets of characters

A set of characters is given by the lengths of the runs of code points that are outside and inside it
in turn, in increasing order; the first run is outside, and so is what comes behind the last one.
-/

namespace Garnet

/-- A set of characters, by the lengths of its runs. -/
structure CharSet where
  runs : Array Nat

/-- Whether `c` is in the set: an odd number of runs ends at or before it. -/
def CharSet.contains (s : CharSet) (c : Char) : Bool :=
  (s.runs.foldl
    (fun (start, inside) run => (start + run, inside ^^ decide (start + run ≤ c.toNat))) (0, false)).2

/-- A set from the numerals of its runs, one behind the other. A digit or a small letter is the last digit of
a numeral, in base 36; the capital letters before it are the digits of the rest, in base 26. Blanks are
skipped. -/
def CharSet.ofNumerals (text : String) : CharSet where
  runs := (text.foldl (fun (runs, rest) c =>
    if c.isWhitespace then (runs, rest)
    else if c.isUpper then (runs, rest * 26 + (c.toNat - 65))
    else (runs.push (rest * 36 + (c.toNat - if c.isDigit then 48 else 87)), 0)) (#[], 0)).1

/-- The characters with the property Alphabetic: letters of every script, letter numbers and the marks
that belong to letters. -/
def CharSet.alphabetic : CharSet := .ofNumerals "
  Btq6qBb1a1415n1v1Mq4ce57111Ce1ti1224116113111k1Cb1Dv8Em1B2216B5B3e111212118r44tb5Bk17eCu184843a321gBcdCtox924
  15o2jjp7b5o17718B6ac376C41g134fdj18222m17113438222211814215c2a14316422m17121212454222417411h6b319131m17121539
  131231f4l44318222m171215382222924215d1g216331432111232333c4533133161B4d131n1g38131382131224s418131n1a15381313
  825314d3cd131B5281313115475m6131i3o191127861118i2dBm5761Bf211151o111j13251161e4w1Br81B04j4g1B0BvBj1125gBsa42B
  211512B71J9142711142B5142x142711142f1Bl142BvB1ggCe263R82h1q5C33b7kblckcd1312cBg2je141BvCh7B75Byav1c49nu25bB84
  qBis4Br2kBe1n2b3BdBg1f18BfB624aB81beBjm3aB02b5B723B541612315FcjybHq262B226281111111v2Bh1711331734264d5317D81d
  1gdCt1412a1135611111141b245541hB5WlBgBYeGd6432cB211512Bk71gn97171717171717171wBb1N13p975254Ce631Ci145B71CmhwB
  cgO8HB4BsXRhBvBa2Hh3ga2kBb583D5B392Cv2Cakl1xoBgcBw11B863113ax5zdt3Bf1cf1gga51Bj9ein3Bx1111o32g24b6262697171B7
  1e6DflLYccn4BdJAsK62CyB27c55c1d151112121D0xK3iBs2BiB4cD851DrB0q6qbCh36262623zc1q1j121f2eyDfBxBhHft3BdBbwdu5B7
  5u2B04815B6EeiB04B04B48Bgcb1f17121b1f17123BgcIn9ma8o61B619Bx6211B812312nan9vBtj12amaq6qB2Bk62Bs41258131tB6t3t
  z81srBiamajdiD2C1BjBfdBfdB4ys315nGyB61232g6Be33ta18mB6iBalrn9ByB75aBl91dpnBfh48z319Bs1492a111zi1y2164Bq711141
  f1a7Bln418222m171215382222316157sa11211B21a112114123111B8Bu1314k3uBu2211F4Bi27p6yBr1131BnBi21Bzr2el7F5BlCvBsv
  82128121u122224Cl82Ba261112rBf2ahC051iC1Cv8Cgxv91B91711Bdu2m1eC17121B83112131122o6121B1121411nB8H8n9h1B533D31
  C7ZmCuD3hFgCV8CpfBDsh6pEGz5Q7HI1BbBWhPt7vhC7huiBcg4vl5jM0B9FvBswp2pB8C34Bl7hBs211c79HX2B5wCpD7JHp417121I3f1t3
  21e48L0CM4Cz5d397a41GK9Cd1Bz122122241c11171Bt1428171s141511371Jg2p1p1v1p1v1p1v1p1v1p18BZ8v66Fx71h2712155Bqx1D
  4B9a7g1IxuiB8NgsGcu21Frv1m82G8714121f1FhBnBw3131BHg41r1211211a141111614111111312112111111111121124171414111a1
  h53151hRgq6q6qDYuBTQowERq2GEe2HZlfRaCQiP2BPuFH75JBu"

/-- The characters with the property Grapheme_Extend, which are drawn onto the character in front. -/
def CharSet.extending : CharSet := .ofNumerals "
  VcD4Hn7HbB911121211C0bBclg1Ct7262214z1urCjbBm991o4191315B73Bn9B6o1wBj111484137a2t1Bm111248191a2q122Bl14242233
  1u231b2Bl1451241k2m611Bm112148173a2u1Bn111c191B4131Bj113531472b2t1Bm12211331472b2s2Bl211248191a2t1C0141231181
  C9127c8Cq129b7C12r11111Bje15125b1B091Cu4161222p243g4d12261f1Tj3BAa4s3t2u2Bs217812b91B9311D92y1Da3429163G3221B
  m1171111286a21BcBa2ck4Bca43B29c2w426Bk1123115Bk822E831d17416132FiBsOk1FfxDHa3Dx1CowPe6Cx2BGFw41aw2C82Hk13141p
  251E72qid1B28pb11B83Bc1242221B01Bv62222c181Bb1Bf113225211B6281Gm12141VR41UhgggK62Qt1Ga1E55BUe31254B4341El2Px4
  Bt5It2C56BybBd4Df1BifB5122a3Bd42271Bp3B0518Bq1c2Bg9118421Cn3246121Ed138l2Bl21111c191e735Bv1261121134311e2Cd82
  311n1C912611211212Gj1246212r2Cd82112Cy11128Ct1112415H7912Gt1a441E042241waB4624819623Bad12Fi11311Fl71611Cam271
  212De631121711C023111Jn2b2Bg553n1FSl16fMGgc33CRc5Bn7BD41Br4C91b2UZ72FApBa2nP25368827u4E43CCzBj4Be81e1m51fBLs7
  1h271215Cs1Eg7Kf1Bp4O44H22Gr1217251N67D17BGOLpCoDkGo"

/-- The decimal digits, letter numbers and other numbers: categories Nd, Nl and No. -/
def CharSet.numeric : CharSet := .ofNumerals "
  BcaDc25123BO1aDqaFiaLgaDaa46D0aDaaDaa26D2dD7a87CvaCw77jD1aCoaDaaBykHgaByaTzkYh3Gna6amaIcaDkbEla6aF2aCeaDqa6aB
  D21366aFiBf25U6BoC6mRiuBMh1Vl1p9e3Jj4Duau81fwaB3fBFOgaF8aIw6EaaB2aFiamaCeaLaaWSuaNpB9cBlh2JhrB04t181Dq5FmaBA6
  8p7B39C35m6Eg22g2BaBs9Bg2u3C35Cw8o8B57J66Bca6aHqvEeaB64D47DquDkaBoaE0a7kGzaJiaDaaKeaCua6kC4cLojClaSeaCetGbaBy
  aBiaJyaCulBDnD3QQ1aCN2aCeaDqa17OmaHanJp3ZL5aBP2kckD0pBEtBeCNsaLqaNyaGvaTw9DkaVzBn1314C4B91fBAqdCZfa"

/-- The characters that are shown as themselves: all but control, format, surrogate, private and
unassigned code points and separators; the plain blank is shown. -/
def CharSet.printable : CharSet := .ofNumerals "
  wCnyc1Tu2647111k1L11B22Be231Bj8r46hm1Fc1Bc2Bn2CteBn2Bd2f1s211b5w7C31Eh18222m1711342922248142152p2316422m17121
  212211542233174117ha319131m1712152a131321f42c771318222m1712152922237342152ia216331432111232333c4533142161el5d
  131n1g291314721312242a7m131n1a152913147253142a13cd131Bf13164g2q131i3o191127314611186a23cBm4tB1211151o111n2511
  171a24wC01B04B31B01f1dB1Fi11512Kh142711142B5142x142711142f1Bl142Bv2w3q6Ce262Rs1s3Ch7m9o9kcd1312cCm2a6a6e1b6Ch
  7B75Byav1c4c413B625bB84q6b3Bq2Bt1t2b6a6e2Ba2ckC51Em8Bo3f3Bq5B72b8B75Ou262B226281111111v2Bh1f1e261j2319ho8Bbh2
  2r1d3yexfDw4SimblBYc2Km5B911512Bk72eo97171717171717171Diyq1ChcFyqg1Br1Ce2Cv5B71Cm1Ce9Bc1BFHp3Bj9JokF48G5kBo3a
  6Bk8By8c6D8bu3C61b4x1Bj9e2a2Cvosa6262697171Bo4Di2a6LYccn4BdJAsK62CyB27c55q151112121S2wB66Bf1j14451Dr4Fa362626
  233717d22c1q1j121f2eyDf534B93Cg1d31BbBaDmt3Bdfs4B09u5B75u1B14eB6Ee2a6B04B04B48Bgbc1f17121b1f17123BgcIn9ma8o61
  B619Bx6211B812312n1C089Bcj125x3r5rB2Bk4k2Be1258131t234a797BswB34c9Bi3t2r5q74c7C8C1BjBfdBf7Ba8a6B23t82Fsv1B613
  22g689xBa8B6mqB2skn9C64B09Bq15dp7a6Bh1i8B39Co1kbi1BbBq711141f1b6Bn5a6418222m1712151a22232161572735ba11211B21a
  1121141a1282tCk15uC08aEmBi2B2yBxba6djBm6a6ksr2f4nF5BoCsCbc82128121u122c9aBy82Ba2brC08CbdC17aCe8Cgyea691B91eat
  3w2m1eC17121B83112198a66121B112167a6B84aGup7h1B53tCd1fBedZnCuD315bFgCV8CrdBDsgmaEGz5Q7HI1BmBW6Pt7v1a4C91a6u26
  aByaa171l5jM0BmFiCj5p2pB8C34Bl7hBs5b79HX2B5wCpD7JHp417121I3f1t321e48L0CM4Cz5d397a24EFcH13M46nfhfBa2n9D8BoGuaB
  32C28D4lByDekckcCf9pDrCd1Bz122122241c11171Bt1428171s141511371Jg2I42Tif51fBEov66Fx71h2712155Bqx1D4B93e2a42Iwvh
  Bm51MwB6FyB741Fcv1m82G8714121f1Fh2gB5C44a42VtBwC4BpFe41r1211211a141111614111111312112111111111121124171414111
  a1h53151hBg2HiB84Cscf2f1f1B1aEuBktdB84972e6EaBBd3h3d3G26c41fc4Bk8a6B48u2c42e9B3Jk8e2d3b3Bl114g2c4a7E31CvBClBT
  QowERq2GEe2HZlfRaCQiP2BPuFH75JBuBDCCuGo"

end Garnet
